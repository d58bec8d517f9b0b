import Mathlib.Data.List.TakeWhile
import Xv6.Mkfs.Image

/-! The entries of the root directory of the image. -/
namespace Xv6.Mkfs

open Lib Fs

variable {n k : ℕ} {s : State} {args : List Input} {root d : Dinode} {blocks : Disk} {f : File}

theorem Stores.bytesFrom {off len : ℕ} (h : Stores blocks d f) (hend : off + len ≤ f.data.length) :
    bytesFrom blocks d off len = (f.data.drop off).take len := by
  apply List.ext_getElem
  · simp
    omega
  · intro j h₁ h₂
    rw [length_bytesFrom] at h₁
    simp only [Fs.bytesFrom, List.getElem_map, List.getElem_range, List.getElem_take,
      List.getElem_drop]
    rw [h.bytes _ (by omega), List.getD_eq_getElem]

def rootNames (args : List Input) : List Str := lit "." :: lit ".." :: args.map Input.shortname

@[simp] theorem length_rootNames (args : List Input) : (rootNames args).length = args.length + 2 := by
  simp [rootNames]

theorem slice_entries (inum : ℕ) (args : List Input) (hk : k < args.length) :
    ((entries inum args).drop (Dirent.bytes * k)).take Dirent.bytes =
      Dirent.encode (inum + k) args[k].shortname := by
  induction args generalizing inum k with
  | nil => exact absurd hk (Nat.not_lt_zero k)
  | cons a as ih =>
    rw [entries]
    cases k with
    | zero => exact List.take_left' (Dirent.length_encode _ _)
    | succ k =>
      rw [Nat.mul_succ, Nat.add_comm, ← List.drop_drop,
        List.drop_left' (Dirent.length_encode _ _), List.getElem_cons_succ,
        ih (inum + 1) (Nat.lt_of_succ_lt_succ hk), Nat.add_right_comm, Nat.add_assoc]

theorem slice_rootFile (hk : k < (rootNames args).length) :
    ((rootFile args).data.drop (Dirent.bytes * k)).take Dirent.bytes =
      Dirent.encode (max 1 k) (rootNames args)[k] := by
  rw [rootFile, List.append_assoc]
  have hlen : ∀ name, (Dirent.encode rootIno name).length = Dirent.bytes :=
    Dirent.length_encode rootIno
  obtain rfl | rfl | ⟨k, rfl⟩ : k = 0 ∨ k = 1 ∨ ∃ j, k = j + 2 := by
    by_cases h2 : 2 ≤ k
    · exact Or.inr (Or.inr ⟨k - 2, by omega⟩)
    · omega
  · exact List.take_left' (hlen _)
  · rw [Nat.mul_one, List.drop_left' (hlen _)]
    exact List.take_left' (hlen _)
  · rw [length_rootNames] at hk
    rw [show Dirent.bytes * (k + 2) = Dirent.bytes + (Dirent.bytes + Dirent.bytes * k) by ring,
      ← List.drop_drop, List.drop_left' (hlen _), ← List.drop_drop, List.drop_left' (hlen _),
      slice_entries 2 args (by omega), Nat.max_eq_right (by omega), Nat.add_comm 2 k]
    simp [rootNames]

theorem length_rootFile_names (args : List Input) :
    (rootFile args).data.length = Dirent.bytes * (rootNames args).length := by
  rw [length_rootFile, length_rootNames]

theorem entry_root (h : Stores blocks d (rootFile args)) (hargs : args.length < 2 ^ 15)
    (hk : k < (rootNames args).length) :
    entry blocks d k = ⟨max 1 k, strncpy (rootNames args)[k] dirsiz⟩ := by
  have hlen := length_rootFile_names args
  have hend : Dirent.bytes * k + Dirent.bytes ≤ (rootFile args).data.length := by
    rw [hlen, ← Nat.mul_succ]
    exact Nat.mul_le_mul_left _ hk
  rw [length_rootNames] at hk
  rw [entry, h.bytesFrom hend, slice_rootFile, Dirent.ofBytes_encode]
  omega

theorem entry_tail (h : Stores blocks d (rootFile args)) (hk : (rootNames args).length ≤ k)
    (hmax : (Dirent.bytes * k) / bsize < maxFile)
    (h0 : blockOf blocks d ((Dirent.bytes * k) / bsize) ≠ 0) : (entry blocks d k).inum = 0 := by
  have hlen := length_rootFile_names args
  have hzero : bytesFrom blocks d (Dirent.bytes * k) Dirent.bytes =
      List.replicate Dirent.bytes 0 := by
    rw [List.eq_replicate_iff]
    refine ⟨length_bytesFrom _ _ _ _, fun c hc => ?_⟩
    obtain ⟨j, hj, rfl⟩ := List.mem_map.mp hc
    rw [List.mem_range] at hj
    have hle := Nat.mul_le_mul_left Dirent.bytes hk
    have hdiv : (Dirent.bytes * k + j) / bsize = Dirent.bytes * k / bsize := by
      rw [Dirent.bytes_eq] at *
      rw [bsize_eq]
      omega
    apply h.tail
    · omega
    · rwa [hdiv]
    · rwa [hdiv]
  rw [entry, hzero]
  rfl

theorem namecmp_strncpy {name name' : Str} (h : 0 ∉ name) (hl : name.length ≤ dirsiz) (h' : 0 ∉ name')
    (hl' : name'.length ≤ dirsiz) : namecmp name (strncpy name' dirsiz) = 0 ↔ name = name' := by
  have hclip : ∀ l : Str, 0 ∉ l → l.length ≤ dirsiz → clip l dirsiz = l := by
    intro l h0 hlen
    rw [clip, List.take_of_length_le hlen, List.takeWhile_eq_self_iff]
    intro c hc
    have hne : c ≠ 0 := by
      rintro rfl
      exact h0 hc
    simpa using hne
  rw [namecmp, strncmp_eq_zero_iff, clip_strncpy, hclip name h hl, hclip name' h' hl']

theorem Input.shortname_text (a : Input) : 0 ∉ a.shortname := by
  have hbase : 0 ∉ a.basename := by
    unfold basename
    split_ifs
    · exact fun h => a.path_text (List.mem_of_mem_drop h)
    · exact a.path_text
  unfold shortname
  split_ifs
  · exact fun h => hbase (List.mem_of_mem_drop h)
  · exact hbase

theorem rootNames_text (h : ∀ a ∈ args, a.Accepted) {name : Str} (hn : name ∈ rootNames args) :
    0 ∉ name ∧ name.length ≤ dirsiz := by
  rw [rootNames, List.mem_cons, List.mem_cons, List.mem_map] at hn
  obtain rfl | rfl | ⟨a, ha, rfl⟩ := hn
  · decide
  · decide
  · exact ⟨a.shortname_text, (h a ha).name⟩

end Xv6.Mkfs
