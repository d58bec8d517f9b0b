import Xv6.Mkfs.Root

/-! When the image is a consistent file system. -/
namespace Xv6.Mkfs

open Lib Fs

variable {n k i : ℕ} {s : State} {args : List Input} {root : Dinode}

def State.inode (s : State) (i : ℕ) : Dinode := Fs.inode Superblock.mkfs s.sect i

/-- How many entries of the root other than `.` name inode `i`. -/
def State.links (s : State) (i : ℕ) : ℕ :=
  (List.range ((s.inode rootIno).size.toNat / Dirent.bytes)).countP fun k =>
    (entry s.sect (s.inode rootIno) k).inum = i ∧
      namecmp (lit ".") (entry s.sect (s.inode rootIno) k).name ≠ 0

/-- Every file is mapped up to its size, no block belongs to two files, the free bit map marks what
has been allocated, and the link counts are right. The kernel then reads files without allocating
blocks. -/
structure Consistent (s : State) : Prop where
  mapped : ∀ i ≤ ninodes, (s.inode i).type ≠ 0 → Mapped s.sect (s.inode i)
  range : ∀ i ≤ ninodes, (s.inode i).type ≠ 0 → ∀ p < nref, ref s.sect (s.inode i) p ≠ 0 →
    nmeta ≤ ref s.sect (s.inode i) p ∧ ref s.sect (s.inode i) p < s.freeblock
  distinct : ∀ i ≤ ninodes, ∀ j ≤ ninodes, (s.inode i).type ≠ 0 → (s.inode j).type ≠ 0 →
    ∀ p < nref, ∀ q < nref, ref s.sect (s.inode i) p ≠ 0 →
      ref s.sect (s.inode i) p = ref s.sect (s.inode j) q → i = j ∧ p = q
  bitmap : ∀ b < bpb, used Superblock.mkfs s.sect b = decide (b < s.freeblock)
  nlink : ∀ i ≤ ninodes, (s.inode i).type ≠ 0 → (s.inode i).nlink.toNat = s.links i
  reads : ∀ i ≤ ninodes, (s.inode i).type ≠ 0 → ∀ dst off n, n < 2 ^ 32 →
    (readi Superblock.mkfs (s.inode i) dst off n).Returns viewInterp
      (fun r w => r.2.2 = s.inode i ∧ w = ⟨s.sect, fun _ => false⟩) ⟨s.sect, fun _ => false⟩

namespace IsImage

theorem cases (h : IsImage n args s root) (hi : i < n) (ht : (s.inode i).type ≠ 0) :
    i = rootIno ∨ ∃ k, ∃ hk : k < args.length, i = k + 2 ∧
      Stores s.sect (s.inode i) args[k].file := by
  by_cases hfree : i = 0 ∨ args.length + 1 < i
  · rw [State.inode, show Fs.inode Superblock.mkfs s.sect i = Dinode.zero from h.free i hi hfree] at ht
    exact absurd rfl ht
  · by_cases h1 : i = rootIno
    · exact Or.inl h1
    · right
      have h1' : i ≠ 1 := h1
      obtain ⟨k, rfl⟩ := Nat.exists_eq_add_of_le' (show 2 ≤ i by omega)
      exact ⟨k, by omega, rfl, h.file k (by omega)⟩

theorem root_type (h : IsImage n args s root) : (s.inode rootIno).type ≠ 0 := by
  have hr : s.inode rootIno = _ := h.root_inode
  rw [hr]
  exact h.root.type_ne

theorem nlink (h : IsImage n args s root) (hi : i < n) (ht : (s.inode i).type ≠ 0) :
    (s.inode i).nlink.toNat = 1 := by
  obtain rfl | ⟨k, hk, rfl, hst⟩ := h.cases hi ht
  · have hr : s.inode rootIno = _ := h.root_inode
    rw [hr, h.root.same]
    rfl
  · rw [hst.same]
    rfl

theorem root_size (h : IsImage n args s root) (hargs : args.length ≤ ninodes) :
    (s.inode rootIno).size.toNat = ((rootFile args).data.length / bsize + 1) * bsize := by
  have hlen := length_rootFile args
  have hr : s.inode rootIno = _ := h.root_inode
  rw [hr]
  simp only [BitVec.toNat_ofNat]
  apply Nat.mod_eq_of_lt
  rw [hlen, Dirent.bytes_eq, bsize_eq]
  rw [ninodes_eq] at hargs
  omega

/-- The root has a hole exactly if its entries fill whole blocks. -/
theorem root_mapped_iff (h : IsImage n args s root) (hargs : args.length ≤ ninodes) :
    Mapped s.sect (s.inode rootIno) ↔ (args.length + 2) % (bsize / Dirent.bytes) ≠ 0 := by
  have hlen := length_rootFile args
  have hsize := h.root_size hargs
  have hr : s.inode rootIno = _ := h.root_inode
  have href : ∀ k, blockOf s.sect (s.inode rootIno) k = blockOf s.sect root k := by
    intro k
    rw [hr, blockOf, blockOf]
    exact ref_congr_addrs rfl
  have hexact := h.root.exact.data
  have hper : bsize / Dirent.bytes = 64 := by decide
  rw [ninodes_eq] at hargs
  unfold Mapped
  simp only [href, hsize, hper]
  rw [hlen, Dirent.bytes_eq] at *
  unfold blocksFor at hexact
  rw [maxFile_eq, bsize_eq] at *
  constructor
  · intro hall hmod
    obtain ⟨hlt, hne⟩ := hall (16 * (args.length + 2) / 1024) (by omega)
    rw [hexact _ hlt] at hne
    omega
  · intro hmod k hk
    have hlt : k < 268 := by omega
    refine ⟨hlt, (hexact k hlt).mpr ?_⟩
    omega

theorem range (h : IsImage n args s root) (hi : i < n) (ht : (s.inode i).type ≠ 0) {p : ℕ}
    (hp : p < nref) (h0 : ref s.sect (s.inode i) p ≠ 0) :
    nmeta ≤ ref s.sect (s.inode i) p ∧ ref s.sect (s.inode i) p < s.freeblock := by
  obtain ⟨hd, hu⟩ := h.owned.of_ref hi ht hp rfl h0
  rw [h.used _ (lt_trans hd.2 fssize_lt_bpb), decide_eq_true_iff] at hu
  refine ⟨?_, hu⟩
  rw [← dataStart_layout (n := n)]
  exact hd.1

theorem entry_root_inode (h : IsImage n args s root) (k : ℕ) :
    entry s.sect (s.inode rootIno) k = entry s.sect root k := by
  have hr : s.inode rootIno = _ := h.root_inode
  have hbyte : ∀ x, byteAt s.sect (s.inode rootIno) x = byteAt s.sect root x := by
    intro x
    rw [hr]
    exact byteAt_congr_addrs rfl
  unfold entry bytesFrom
  simp only [hbyte]

theorem links_eq (h : IsImage n args s root) (hacc : ∀ a ∈ args, a.Accepted)
    (hargs : args.length ≤ ninodes) (hm : Mapped s.sect (s.inode rootIno)) (h0 : 0 < i)
    (hi : i < (rootNames args).length) :
    s.links i = if (rootNames args)[i] = lit "." then 0 else 1 := by
  have hsize := h.root_size hargs
  have hlen := length_rootFile_names args
  have hargs' : args.length < 2 ^ 15 := hargs.trans_lt (by decide)
  set K := (s.inode rootIno).size.toNat / Dirent.bytes with hK
  have hKlen : (rootNames args).length ≤ K := by
    rw [hK, hsize, hlen, Dirent.bytes_eq, bsize_eq]
    omega
  have hentry : ∀ k (hk : k < (rootNames args).length),
      entry s.sect (s.inode rootIno) k = ⟨max 1 k, strncpy (rootNames args)[k] dirsiz⟩ := by
    intro k hk
    rw [h.entry_root_inode]
    exact entry_root h.root hargs' hk
  have hdot : ∀ k (hk : k < (rootNames args).length),
      namecmp (lit ".") (strncpy (rootNames args)[k] dirsiz) = 0 ↔ lit "." = (rootNames args)[k] := by
    intro k hk
    obtain ⟨ht, hl⟩ := rootNames_text hacc (List.getElem_mem hk)
    exact namecmp_strncpy (by decide) (by decide) ht hl
  have htail : ∀ k, (rootNames args).length ≤ k → k < K →
      (entry s.sect (s.inode rootIno) k).inum = 0 := by
    intro k hk hkK
    have hat := hm.at (x := Dirent.bytes * k) (by
      rw [hK, Dirent.bytes_eq] at hkK
      rw [Dirent.bytes_eq]
      omega)
    rw [h.entry_root_inode]
    apply entry_tail h.root hk hat.1
    have hr : s.inode rootIno = _ := h.root_inode
    rw [hr] at hat
    exact hat.2
  have hcount := countP_eq_of_eq_off (p := i) (l := List.range K)
    (P := fun k => decide ((entry s.sect (s.inode rootIno) k).inum = i ∧
      namecmp (lit ".") (entry s.sect (s.inode rootIno) k).name ≠ 0))
    (R := fun _ => false) List.nodup_range (List.mem_range.mpr (hi.trans_le hKlen)) ?_
  · rw [List.countP_false, Function.const_apply, Bool.toNat_false, Nat.add_zero, Nat.zero_add] at hcount
    rw [State.links, ← hK, hcount, hentry i hi]
    simp only [Nat.max_eq_right (Nat.succ_le_of_lt h0), Ne, hdot i hi, true_and]
    by_cases hname : (rootNames args)[i] = lit "."
    · simp [hname]
    · simp [hname, Ne.symm hname]
  · intro k hk hki
    rw [decide_eq_false_iff_not]
    by_cases hkl : k < (rootNames args).length
    · rw [hentry k hkl]
      rintro ⟨hmax, hname⟩
      have hk0 : k = 0 := by
        simp only at hmax
        omega
      subst hk0
      exact hname ((hdot 0 hkl).mpr rfl)
    · rw [htail k (not_lt.mp hkl) (List.mem_range.mp hk)]
      rintro ⟨rfl, -⟩
      exact absurd h0 (Nat.lt_irrefl 0)

end IsImage

/-- The image is consistent exactly if the entries of the root do not fill whole blocks and no file
is called `.`. -/
theorem mkfs_consistent_iff (args : List Input) (h : Fits args) :
    ∃ s, (main args).run interp State.start = .ok ((), s) ∧
      (Consistent s ↔ (args.length + 2) % (bsize / Dirent.bytes) ≠ 0 ∧
        ∀ a ∈ args, a.shortname ≠ lit ".") := by
  have hargs : args.length ≤ ninodes := Nat.le_of_succ_le h.inodes
  have hinodes := h.inodes
  obtain ⟨n, hn⟩ : ∃ n, n = ninodes + 1 := ⟨_, rfl⟩
  have hlt : ∀ i ≤ ninodes, i < n := fun i hi => by omega
  obtain ⟨s, root, hrun, him⟩ := main_isImage (n := n) (by rw [hn, ninodes_eq]; omega) h (by omega)
  refine ⟨s, hrun, fun hcon => ?_, fun ⟨hfill, hdot⟩ => ?_⟩
  · have hm := hcon.mapped rootIno (by decide) him.root_type
    refine ⟨(him.root_mapped_iff hargs).mp hm, fun a ha hdot => ?_⟩
    obtain ⟨k, hk, rfl⟩ := List.getElem_of_mem ha
    have hst := him.file k hk
    have hi : k + 2 ≤ ninodes := by omega
    have hone := hcon.nlink (k + 2) hi hst.type_ne
    rw [him.nlink (hlt _ hi) hst.type_ne,
      him.links_eq h.accepted hargs hm (by omega) (by rw [length_rootNames]; omega), if_pos] at hone
    · exact absurd hone (by decide)
    · simpa [rootNames] using hdot
  · have hm := (him.root_mapped_iff hargs).mpr hfill
    have hmapped : ∀ i ≤ ninodes, (s.inode i).type ≠ 0 → Mapped s.sect (s.inode i) := by
      intro i hi ht
      obtain rfl | ⟨k, hk, rfl, hst⟩ := him.cases (hlt _ hi) ht
      · exact hm
      · exact hst.mapped
    refine ⟨hmapped, ?_, ?_, him.used, ?_, ?_⟩
    · intro i hi ht p hp h0
      exact him.range (hlt _ hi) ht hp h0
    · intro i hi j hj hti htj p hp q hq h0 he
      exact him.owned.unique (hlt _ hi) hti hp (hlt _ hj) htj hq h0 he
    · intro i hi ht
      rw [him.nlink (hlt _ hi) ht]
      obtain rfl | ⟨k, hk, rfl, -⟩ := him.cases (hlt _ hi) ht
      · rw [him.links_eq h.accepted hargs hm (by decide) (by rw [length_rootNames]; exact Nat.le_add_left 2 _), if_neg]
        show lit ".." ≠ lit "."
        decide
      · rw [him.links_eq h.accepted hargs hm (by omega) (by rw [length_rootNames]; omega), if_neg]
        simpa [rootNames] using hdot _ (List.getElem_mem hk)
    · intro i hi ht dst off n hn
      have hfree : (⟨s.sect, fun _ => false⟩ : View).Free := fun _ => rfl
      refine (returns_of_reads (readi_spec Superblock.mkfs dst off hn hfree (hmapped i hi ht))).mono ?_
      rintro r w ⟨hw, hip, -⟩
      exact ⟨hip, hw⟩

theorem mkfs_consistent_iff_cat : Fits [⟨lit "user/_cat", by decide, [[104, 105]], by decide⟩] ∧
    ∃ s, (main [⟨lit "user/_cat", by decide, [[104, 105]], by decide⟩]).run interp State.start =
      .ok ((), s) ∧ Consistent s := by
  have hfits : Fits [⟨lit "user/_cat", by decide, [[104, 105]], by decide⟩] := by
    refine ⟨?_, by decide, by decide +kernel⟩
    intro a ha
    rw [List.mem_singleton.mp ha]
    exact ⟨by decide, by decide, by decide⟩
  obtain ⟨s, hrun, hiff⟩ := mkfs_consistent_iff _ hfits
  refine ⟨hfits, s, hrun, hiff.mpr ⟨by decide, ?_⟩⟩
  intro a ha
  rw [List.mem_singleton.mp ha]
  decide

/-- The empty files `a0`, `a1` and so on: with `.` and `..` their entries fill a block. -/
def blockful : List Input :=
  List.ofFn fun k : Fin 62 => ⟨[97, UInt8.ofNat (48 + k)], by revert k; decide, [], by simp⟩

theorem blockful_fits : Fits blockful := by
  refine ⟨?_, by decide, by decide +kernel⟩
  intro a ha
  obtain ⟨k, rfl⟩ := List.mem_ofFn.mp ha
  clear ha
  refine ⟨?_, ?_, Nat.zero_le _⟩
  · revert k
    decide
  · revert k
    decide

/-- The size of the root becomes two blocks but there is only one. -/
theorem blockful_hole : Fits blockful ∧ ∃ s, (main blockful).run interp State.start = .ok ((), s) ∧
    (s.inode rootIno).size.toNat = 2 * bsize ∧ ¬ Mapped s.sect (s.inode rootIno) ∧
    ¬ Consistent s := by
  have hargs : blockful.length ≤ ninodes := by decide
  obtain ⟨s, root, hrun, him⟩ := main_isImage (n := 201) (by decide) blockful_fits (by decide)
  have hm : ¬ Mapped s.sect (s.inode rootIno) := by
    rw [him.root_mapped_iff hargs]
    decide
  refine ⟨blockful_fits, s, hrun, ?_, hm, fun hc => ?_⟩
  · rw [him.root_size hargs, length_rootFile]
    decide
  · exact hm (hc.mapped rootIno (by decide) him.root_type)

end Xv6.Mkfs
