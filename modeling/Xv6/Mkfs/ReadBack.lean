import Xv6.Mkfs.Consistency
import Xv6.Log.Machine

/-! The kernel finds the files on the image and reads what they contained. -/
namespace Xv6.Fs

open Bio Lib

/-- The fields of the super block at the start of a block, with its magic number. -/
def Superblock.ofBlock (c : Block) : ℕ × Superblock :=
  (c.getLE 0 4, {
    size := c.getLE 4 4
    ninodes := c.getLE 12 4
    nlog := c.getLE 16 4
    logstart := c.getLE 20 4
    inodestart := c.getLE 24 4
    bmapstart := c.getLE 28 4 })

def readsb : Code (ℕ × Superblock) := do
  let bp ← bread 1
  brelse 1
  return Superblock.ofBlock bp

/-- `fsinit` up to `initlog`. -/
def fsinit : Code Superblock := do
  let (magic, sb) ← readsb
  if magic ≠ Mkfs.fsmagic then panic "invalid file system"
  else return sb

end Xv6.Fs

namespace Xv6.Mkfs

open Lib Fs

variable {n k : ℕ} {s : State} {args : List Input} {root d : Dinode} {blocks : Disk} {f : File}

def State.disk (s : State) : View := ⟨s.sect, fun _ => false⟩

theorem State.disk_free (s : State) : s.disk.Free := fun _ => rfl

theorem ofBlock_superblock : Superblock.ofBlock superblock = (fsmagic, Superblock.mkfs) := by
  have hget : ∀ k (hk : k < 8), superblock.getLE (4 * k) 4 = ([fsmagic, fssize, fssize - nmeta,
      ninodes, nlog, 2, 2 + nlog, 2 + nlog + ninodeblocks].get ⟨k, hk⟩) % 2 ^ 32 := by
    intro k hk
    rw [superblock, ← Nat.zero_add (4 * k), Bytes.getLE_setWords 0 _ _ (by decide) hk]
    rfl
  have h0 := hget 0 (by decide)
  have h1 := hget 1 (by decide)
  have h3 := hget 3 (by decide)
  have h4 := hget 4 (by decide)
  have h5 := hget 5 (by decide)
  have h6 := hget 6 (by decide)
  have h7 := hget 7 (by decide)
  unfold Superblock.ofBlock
  rw [h0, h1, h3, h4, h5, h6, h7]
  rfl

theorem fsinit_spec (h : s.sect 1 = superblock) :
    fsinit.Returns viewInterp (fun sb w => sb = Superblock.mkfs ∧ w = s.disk) s.disk := by
  have hread : readsb.Returns viewInterp
      (fun r w => r = (fsmagic, Superblock.mkfs) ∧ w = s.disk) s.disk := by
    unfold readsb
    apply returns_bread (s.disk_free _)
    apply returns_release (s.disk_free _)
    refine .ret ⟨?_, rfl⟩
    show Superblock.ofBlock (s.sect 1) = _
    rw [h, ofBlock_superblock]
  unfold fsinit
  apply hread.bind
  rintro _ _ ⟨rfl, rfl⟩
  exact .ret ⟨rfl, rfl⟩

theorem Stores.mappedOn (h : Stores blocks d f) {off len : ℕ} (hend : off + len ≤ f.data.length) :
    MappedOn blocks d off len := by
  intro x _ hx
  have hsmall := h.small
  have hlt : x / bsize < maxFile := by
    apply Nat.div_lt_of_lt_mul
    rw [Nat.mul_comm]
    omega
  refine ⟨hlt, (h.exact.data _ hlt).mpr ?_⟩
  unfold blocksFor
  rw [bsize_eq] at *
  omega

theorem Stores.readi (h : Stores s.sect d f) (dst : Dst) (off : ℕ) (hn : off + n < 2 ^ 32) :
    (readi Superblock.mkfs d dst off n).Returns viewInterp
      (fun r w => w = s.disk ∧ r.2.2 = d ∧ (dst = .kernel → r.1 ≠ -1) ∧ (r.1 ≠ -1 →
        r.1 = ((f.data.drop off).take n).length ∧ r.2.1 = (f.data.drop off).take n)) s.disk := by
  refine (returns_of_reads (readi_spec Superblock.mkfs dst off (by omega) s.disk_free h.mapped)).mono ?_
  rintro r w ⟨hw, hip, hk, hr⟩
  refine ⟨hw, hip, hk, fun hne => ?_⟩
  obtain ⟨h₁, h₂⟩ := hr hn hne
  rw [h₁, h₂, h.size, List.length_take, List.length_drop]
  refine ⟨rfl, ?_⟩
  by_cases hoff : off ≤ f.data.length
  · show Fs.bytesFrom s.sect d off _ = _
    rw [h.bytesFrom (by omega), ← List.length_drop, List.take_eq_take_iff]
    omega
  · rw [List.drop_of_length_le (by omega), Nat.sub_eq_zero_of_le (by omega), Nat.min_zero,
      List.take_nil]
    rfl

namespace IsImage

theorem dirlookup_root (h : IsImage n args s root) (hacc : ∀ a ∈ args, a.Accepted)
    (hargs : args.length ≤ ninodes) (hnames : (rootNames args).Nodup)
    (hk : k < (rootNames args).length) :
    (dirlookup Superblock.mkfs (s.inode rootIno) (rootNames args)[k]).Returns viewInterp
      (fun r w => r = (some (max 1 k, Dirent.bytes * k), s.inode rootIno) ∧ w = s.disk) s.disk := by
  have hargs' : args.length < 2 ^ 15 := hargs.trans_lt (by decide)
  have hlen := length_rootFile_names args
  have hle : Dirent.bytes * (k + 1) ≤ (rootFile args).data.length := by
    rw [hlen]
    exact Nat.mul_le_mul_left _ hk
  have hr : s.inode rootIno = _ := h.root_inode
  have hentry : ∀ j (hj : j < (rootNames args).length),
      entry s.sect (s.inode rootIno) j = ⟨max 1 j, strncpy (rootNames args)[j] dirsiz⟩ := by
    intro j hj
    rw [h.entry_root_inode]
    exact entry_root h.root hargs' hj
  have hcmp : ∀ j (hj : j < (rootNames args).length),
      namecmp (rootNames args)[k] (strncpy (rootNames args)[j] dirsiz) = 0 ↔ k = j := by
    intro j hj
    obtain ⟨ht, hl⟩ := rootNames_text hacc (List.getElem_mem hk)
    obtain ⟨ht', hl'⟩ := rootNames_text hacc (List.getElem_mem hj)
    rw [namecmp_strncpy ht hl ht' hl', hnames.getElem_inj_iff]
  have hinum : max 1 k = (entry s.disk.blocks (s.inode rootIno) k).inum := by
    rw [show entry s.disk.blocks (s.inode rootIno) k = _ from hentry k hk]
  rw [hinum]
  apply dirlookup_found s.disk_free
  · rw [hr, h.root.same]
    rfl
  · rw [h.root_size hargs]
    rw [bsize_eq]
    omega
  · intro x h₁ h₂
    have hb : blockOf s.disk.blocks (s.inode rootIno) (x / bsize) =
        blockOf s.sect root (x / bsize) := by
      rw [hr]
      exact ref_congr_addrs rfl
    rw [hb]
    exact h.root.mappedOn (Nat.zero_add _ ▸ hle) x h₁ h₂
  · intro j hj
    rw [show entry s.disk.blocks (s.inode rootIno) j = _ from hentry j (hj.trans hk)]
    rintro ⟨-, hm⟩
    exact absurd ((hcmp j (hj.trans hk)).mp hm) (Nat.ne_of_gt hj)
  · rw [show entry s.disk.blocks (s.inode rootIno) k = _ from hentry k hk]
    refine ⟨?_, (hcmp k hk).mpr rfl⟩
    show max 1 k ≠ 0
    omega

end IsImage

/-- The kernel reads back what was written: the image is a file system with an empty log, every name
is found in the root, and the inode it stands for is a file of that length and contents. -/
theorem mkfs_read_back (args : List Input) (h : Fits args)
    (hnames : (args.map Input.shortname).Nodup)
    (hdots : ∀ a ∈ args, a.shortname ≠ lit "." ∧ a.shortname ≠ lit "..") :
    ∃ s, (main args).run interp State.start = .ok ((), s) ∧
      fsinit.Returns viewInterp (fun sb w => sb = Superblock.mkfs ∧ w = s.disk) s.disk ∧
      Log.Cleared Superblock.mkfs.geometry s.sect ∧
      ∀ a ∈ args, ∃ inum off,
        (dirlookup Superblock.mkfs (s.inode rootIno) a.shortname).Returns viewInterp
          (fun r w => r = (some (inum, off), s.inode rootIno) ∧ w = s.disk) s.disk ∧
        (readInode Superblock.mkfs inum).Returns viewInterp
          (fun ip w => ip = s.inode inum ∧ w = s.disk) s.disk ∧
        (s.inode inum).type = tFile ∧ (s.inode inum).size.toNat = a.content.length ∧
        ∀ dst off n, off + n < 2 ^ 32 →
          (readi Superblock.mkfs (s.inode inum) dst off n).Returns viewInterp
            (fun r w => w = s.disk ∧ r.2.2 = s.inode inum ∧ (dst = .kernel → r.1 ≠ -1) ∧
              (r.1 ≠ -1 → r.1 = ((a.content.drop off).take n).length ∧
                r.2.1 = (a.content.drop off).take n)) s.disk := by
  have hargs : args.length ≤ ninodes := Nat.le_of_succ_le h.inodes
  obtain ⟨m, hm⟩ : ∃ m, m = ninodes + 1 := ⟨_, rfl⟩
  obtain ⟨s, root, hrun, him⟩ := main_isImage (n := m) (by rw [hm, ninodes_eq]; omega) h
    (by have := h.inodes; omega)
  have hroot : (rootNames args).Nodup := by
    rw [rootNames, List.nodup_cons, List.nodup_cons, List.mem_cons, List.mem_map, List.mem_map]
    refine ⟨?_, ?_, hnames⟩
    · rintro (heq | ⟨a, ha, heq⟩)
      · exact absurd heq (by decide)
      · exact (hdots a ha).1 heq
    · rintro ⟨a, ha, heq⟩
      exact (hdots a ha).2 heq
  refine ⟨s, hrun, fsinit_spec ?_, ?_, fun a ha => ?_⟩
  · rw [him.boot 1 (by decide), Function.update_self]
  · show (s.sect 2).getLE 0 4 = 0
    rw [him.boot 2 (by decide), Function.update_of_ne (by decide)]
    exact Bytes.getLE_zero _ _
  · obtain ⟨k, hk, rfl⟩ := List.getElem_of_mem ha
    have hst : Stores s.sect (s.inode (k + 2)) args[k].file := him.file k hk
    have hk2 : k + 2 < (rootNames args).length := by
      rw [length_rootNames]
      omega
    have hname : (rootNames args)[k + 2] = args[k].shortname := by simp [rootNames]
    refine ⟨k + 2, Dirent.bytes * (k + 2), ?_, ?_, ?_, hst.size, fun dst off n hn => hst.readi dst off hn⟩
    · have hdir := him.dirlookup_root h.accepted hargs hroot hk2
      rwa [hname, Nat.max_eq_right (by omega)] at hdir
    · show (readInode Superblock.mkfs (k + 2)).Returns viewInterp (fun ip w =>
        ip = Fs.inode Superblock.mkfs s.disk.blocks (k + 2) ∧ w = s.disk) s.disk
      exact readInode_spec (k + 2) s.disk_free
    · rw [hst.same]
      rfl

theorem mkfs_read_back_cat : ∃ s,
    (main [⟨lit "user/_cat", by decide, [[104, 105]], by decide⟩]).run interp State.start =
      .ok ((), s) ∧
    ∃ inum off, (dirlookup Superblock.mkfs (s.inode rootIno) (lit "cat")).Returns viewInterp
      (fun r w => r = (some (inum, off), s.inode rootIno) ∧ w = s.disk) s.disk := by
  have hfits : Fits [⟨lit "user/_cat", by decide, [[104, 105]], by decide⟩] := by
    refine ⟨?_, by decide, by decide +kernel⟩
    intro a ha
    rw [List.mem_singleton.mp ha]
    exact ⟨by decide, by decide, by decide⟩
  obtain ⟨s, hrun, -, -, hall⟩ := mkfs_read_back _ hfits (by decide) (by
    intro a ha
    rw [List.mem_singleton.mp ha]
    exact ⟨by decide, by decide⟩)
  obtain ⟨inum, off, hfound, -⟩ := hall _ (List.mem_singleton.mpr rfl)
  exact ⟨s, hrun, inum, off, hfound⟩

end Xv6.Mkfs
