import Xv6.Fs.Readi
import Xv6.Str

/-! Directories: the format of their entries, and `dirlookup` of `kernel/fs.c`. -/
namespace Xv6.Fs

open Bio Lib

def tDir : BitVec 16 := 1

def tFile : BitVec 16 := 2

structure Dirent where
  inum : ℕ
  name : List UInt8

namespace Dirent

def bytes : ℕ := 16

theorem bytes_eq : bytes = 16 := rfl

def ofBytes (l : List UInt8) : Dirent := ⟨leValue (l.take 2), (l.drop 2).take dirsiz⟩

/-- The bytes of an entry whose name is stored with `strncpy`. -/
def encode (inum : ℕ) (name : Str) : List UInt8 := leBytes 2 inum ++ strncpy name dirsiz

@[simp] theorem length_encode (inum : ℕ) (name : Str) : (encode inum name).length = bytes := by
  simp [encode, dirsiz_eq, bytes_eq]

theorem ofBytes_encode {inum : ℕ} (h : inum < 2 ^ 16) (name : Str) :
    ofBytes (encode inum name) = ⟨inum, strncpy name dirsiz⟩ := by
  unfold ofBytes encode
  rw [List.take_left' (length_leBytes 2 inum), List.drop_left' (length_leBytes 2 inum),
    leValue_leBytes, Nat.mod_eq_of_lt (by norm_num; exact h), List.take_of_length_le]
  simp

end Dirent

def namecmp (s t : Str) : ℤ := strncmp s t dirsiz

/-- The entry is in use and has the name. -/
def Dirent.Matches (de : Dirent) (name : Str) : Prop := de.inum ≠ 0 ∧ namecmp name de.name = 0

instance (de : Dirent) (name : Str) : Decidable (de.Matches name) :=
  inferInstanceAs (Decidable (_ ∧ _))

variable (sb : Superblock)

def dirlookupFrom (name : Str) : List ℕ → Dinode → Code (Option (ℕ × ℕ) × Dinode)
  | [], dp => return (none, dp)
  | off :: offs, dp => do
    let (n, de, dp) ← readi sb dp .kernel off Dirent.bytes
    if n ≠ Dirent.bytes then Bio.panic "dirlookup read"
    else if (Dirent.ofBytes de).inum = 0 then dirlookupFrom name offs dp
    else if namecmp name (Dirent.ofBytes de).name = 0 then
      return (some ((Dirent.ofBytes de).inum, off), dp)
    else dirlookupFrom name offs dp

/-- The offsets below `size` that a loop over a directory visits. -/
def dirOffsets (size : ℕ) : List ℕ :=
  (List.range ((size + (Dirent.bytes - 1)) / Dirent.bytes)).map (Dirent.bytes * ·)

/-- `dirlookup` up to `iget`: the inode number and the offset of the entry. -/
def dirlookup (dp : Dinode) (name : Str) : Code (Option (ℕ × ℕ) × Dinode) :=
  if dp.type ≠ tDir then Bio.panic "dirlookup not DIR"
  else dirlookupFrom sb name (dirOffsets dp.size.toNat) dp

def entry (blocks : Disk) (d : Dinode) (k : ℕ) : Dirent :=
  Dirent.ofBytes (bytesFrom blocks d (Dirent.bytes * k) Dirent.bytes)

variable {sb} {v : View} {dp : Dinode} {name : Str} {k : ℕ}

theorem readi_entry (hfree : v.Free) (hend : Dirent.bytes * (k + 1) ≤ dp.size.toNat)
    (hm : MappedOn v.blocks dp (Dirent.bytes * k) Dirent.bytes) :
    (readi sb dp .kernel (Dirent.bytes * k) Dirent.bytes).Returns viewInterp
      (fun r w => w = v ∧ r.2.2 = dp ∧ r.1 = Dirent.bytes ∧
        Dirent.ofBytes r.2.1 = entry v.blocks dp k) v := by
  refine (returns_of_reads (readi_within sb .kernel hfree (by rwa [← Nat.mul_succ]) hm)).mono ?_
  rintro r w ⟨hw, hip, hk, hr⟩
  obtain ⟨hn, hbytes⟩ := hr (hk rfl)
  exact ⟨hw, hip, hn, by rw [hbytes]; rfl⟩

theorem dirlookupFrom_skip {Q : Option (ℕ × ℕ) × Dinode → View → Prop} {offs : List ℕ}
    (hfree : v.Free) (hend : Dirent.bytes * (k + 1) ≤ dp.size.toNat)
    (hm : MappedOn v.blocks dp (Dirent.bytes * k) Dirent.bytes)
    (hk : ¬(entry v.blocks dp k).Matches name)
    (h : (dirlookupFrom sb name offs dp).Returns viewInterp Q v) :
    (dirlookupFrom sb name (Dirent.bytes * k :: offs) dp).Returns viewInterp Q v := by
  rw [dirlookupFrom]
  refine (readi_entry hfree hend hm).bind ?_
  rintro ⟨n, de, dp'⟩ w ⟨rfl, hdp, hn, hde⟩
  simp only at hdp hn hde ⊢
  rw [hn, hdp, hde, if_neg (by simp)]
  split_ifs with h0 hname
  · exact h
  · exact absurd ⟨h0, hname⟩ hk
  · exact h

theorem dirlookupFrom_match {offs : List ℕ} (hfree : v.Free)
    (hend : Dirent.bytes * (k + 1) ≤ dp.size.toNat)
    (hm : MappedOn v.blocks dp (Dirent.bytes * k) Dirent.bytes)
    (hk : (entry v.blocks dp k).Matches name) :
    (dirlookupFrom sb name (Dirent.bytes * k :: offs) dp).Returns viewInterp
      (fun r w => r = (some ((entry v.blocks dp k).inum, Dirent.bytes * k), dp) ∧ w = v) v := by
  rw [dirlookupFrom]
  refine (readi_entry hfree hend hm).bind ?_
  rintro ⟨n, de, dp'⟩ w ⟨rfl, hdp, hn, hde⟩
  simp only at hdp hn hde ⊢
  rw [hn, hdp, hde, if_neg (by simp), if_neg hk.1, if_pos hk.2]
  exact .ret ⟨rfl, rfl⟩

theorem dirlookup_found (hfree : v.Free) (ht : dp.type = tDir)
    (hend : Dirent.bytes * (k + 1) ≤ dp.size.toNat)
    (hm : MappedOn v.blocks dp 0 (Dirent.bytes * (k + 1)))
    (hbefore : ∀ j < k, ¬(entry v.blocks dp j).Matches name)
    (hk : (entry v.blocks dp k).Matches name) :
    (dirlookup sb dp name).Returns viewInterp
      (fun r w => r = (some ((entry v.blocks dp k).inum, Dirent.bytes * k), dp) ∧ w = v) v := by
  have hon : ∀ j ≤ k, MappedOn v.blocks dp (Dirent.bytes * j) Dirent.bytes := by
    intro j hj x h₁ h₂
    rw [Dirent.bytes_eq] at *
    exact hm x (by omega) (by omega)
  have hloop : ∀ j ≤ k, ∀ rest, (dirlookupFrom sb name
      ((List.range' j (k + 1 - j)).map (Dirent.bytes * ·) ++ rest) dp).Returns viewInterp
      (fun r w => r = (some ((entry v.blocks dp k).inum, Dirent.bytes * k), dp) ∧ w = v) v := by
    intro j hj rest
    induction hj using Nat.decreasingInduction with
    | self =>
      rw [Nat.add_sub_cancel_left]
      exact dirlookupFrom_match hfree hend (hon k le_rfl) hk
    | of_succ j hj ih =>
      rw [show k + 1 - j = (k + 1 - (j + 1)) + 1 by omega, List.range'_succ, List.map_cons,
        List.cons_append]
      refine dirlookupFrom_skip hfree ?_ (hon j hj.le) (hbefore j hj) ih
      exact (Nat.mul_le_mul_left _ (by omega)).trans hend
  unfold dirlookup
  rw [if_neg (by simp [ht])]
  have hsplit : dirOffsets dp.size.toNat = (List.range' 0 (k + 1 - 0)).map (Dirent.bytes * ·) ++
      (List.range' (k + 1) ((dp.size.toNat + (Dirent.bytes - 1)) / Dirent.bytes - (k + 1))).map
        (Dirent.bytes * ·) := by
    have hle : k + 1 ≤ (dp.size.toNat + (Dirent.bytes - 1)) / Dirent.bytes := by
      rw [Dirent.bytes_eq] at *
      omega
    obtain ⟨n, hn⟩ := Nat.exists_eq_add_of_le hle
    rw [← List.map_append, Nat.sub_zero, dirOffsets, List.range_eq_range', hn,
      Nat.add_sub_cancel_left, ← List.range'_append_1, Nat.zero_add]
  rw [hsplit]
  exact hloop 0 (Nat.zero_le k) _

end Xv6.Fs
