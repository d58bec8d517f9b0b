import Xv6.Fs.Bmap

/-! The bytes of a file, and `readi` on a file without holes. -/
namespace Xv6.Fs

open Bio Lib

variable {sb : Superblock} {v : View} {ip d : Dinode} {blocks : Disk} {off n m tot : ℕ} {dst : Dst}

def byteAt (blocks : Disk) (d : Dinode) (x : ℕ) : UInt8 :=
  (blocks (blockOf blocks d (x / bsize))).get (x % bsize)

def bytesFrom (blocks : Disk) (d : Dinode) (off len : ℕ) : List UInt8 :=
  (List.range len).map fun k => byteAt blocks d (off + k)

@[simp] theorem length_bytesFrom (blocks : Disk) (d : Dinode) (off len : ℕ) :
    (bytesFrom blocks d off len).length = len := by
  simp [bytesFrom]

theorem bytesFrom_add (blocks : Disk) (d : Dinode) (off m n : ℕ) :
    bytesFrom blocks d off m ++ bytesFrom blocks d (off + m) n = bytesFrom blocks d off (m + n) := by
  unfold bytesFrom
  rw [List.range_add, List.map_append, List.map_map]
  congr 1
  apply List.map_congr_left
  intro k _
  simp [Nat.add_assoc]

theorem slice_eq_bytesFrom (h : m ≤ bsize - off % bsize) :
    (blocks (blockOf blocks d (off / bsize))).slice (off % bsize) m = bytesFrom blocks d off m := by
  unfold Bytes.slice bytesFrom byteAt
  apply List.map_congr_left
  intro k hk
  rw [List.mem_range] at hk
  have hdiv : (off + k) / bsize = off / bsize := by
    rw [bsize_eq] at *
    omega
  have hmod : (off + k) % bsize = off % bsize + k := by
    rw [bsize_eq] at *
    omega
  rw [hdiv, hmod]

theorem chunk_pos (off : ℕ) (h : tot < n) : 0 < min (n - tot) (bsize - off % bsize) := by
  have := Nat.mod_lt off (by decide : 0 < bsize)
  omega

theorem Mapped.at (h : Mapped blocks d) {x : ℕ} (hx : x < d.size.toNat) :
    x / bsize < maxFile ∧ blockOf blocks d (x / bsize) ≠ 0 := by
  apply h
  have := Nat.div_mul_le_self x bsize
  omega

/-- The `len` bytes from `off` on are in blocks that are there. -/
def MappedOn (blocks : Disk) (d : Dinode) (off len : ℕ) : Prop :=
  ∀ x, off ≤ x → x < off + len → x / bsize < maxFile ∧ blockOf blocks d (x / bsize) ≠ 0

theorem Mapped.on (h : Mapped blocks d) {len : ℕ} (hl : off + len ≤ d.size.toNat) :
    MappedOn blocks d off len :=
  fun _ _ hx => h.at (hx.trans_le hl)

/-- Each round hands out the bytes of one block. -/
theorem readiLoop_spec (hfree : v.Free) (fuel tot off : ℕ) (out : List UInt8)
    (hm : MappedOn v.blocks ip off (n - tot)) (hfuel : n ≤ tot + fuel) (htot : tot ≤ n) :
    (readiLoop sb dst n fuel ip tot off out).Returns readInterp
      (fun r w => w = v ∧ r.2.2 = ip ∧ (dst = .kernel → r.1 ≠ -1) ∧
        (r.1 ≠ -1 → r.1 = n ∧ r.2.1 = out ++ bytesFrom v.blocks ip off (n - tot))) v := by
  induction fuel generalizing tot off out with
  | zero =>
    have htn : tot = n := by omega
    rw [readiLoop]
    exact .ret ⟨rfl, rfl, fun _ => by simp, fun _ => by simp [htn, bytesFrom]⟩
  | succ fuel ih =>
    rw [readiLoop]
    by_cases hlt : tot < n
    · obtain ⟨hk, hne⟩ := hm off le_rfl (by omega)
      have hpos := chunk_pos off hlt
      rw [if_pos hlt]
      refine (bmap_mapped hfree hk hne).bind ?_
      rintro _ _ ⟨rfl, rfl⟩
      simp only
      rw [if_neg hne]
      apply reads_bread (hfree _)
      split_ifs with hout
      · apply reads_release (hfree _)
        refine .ret ⟨rfl, rfl, ?_, by simp⟩
        rintro rfl
        simp [eitherCopyout] at hout
      · apply reads_release (hfree _)
        rw [slice_eq_bytesFrom (Nat.min_le_right _ _)]
        refine (ih (tot + min (n - tot) (bsize - off % bsize)) _ _
          (fun x h₁ h₂ => hm x (by omega) (by omega)) (by omega) (by omega)).mono ?_
        rintro r w ⟨hw, hip, hk, hr⟩
        refine ⟨hw, hip, hk, fun h => ?_⟩
        obtain ⟨hr1, hr2⟩ := hr h
        refine ⟨hr1, ?_⟩
        rw [hr2, List.append_assoc, bytesFrom_add]
        congr 2
        omega
    · have htn : tot = n := by omega
      rw [if_neg hlt]
      exact .ret ⟨rfl, rfl, fun _ => by simp, fun _ => by simp [htn, bytesFrom]⟩

/-- `readi` hands out the bytes up to the end of the file and changes nothing. -/
theorem readi_spec (sb : Superblock) (dst : Dst) (off : ℕ) (hn : n < 2 ^ 32) (hfree : v.Free)
    (hm : Mapped v.blocks ip) :
    (readi sb ip dst off n).Returns readInterp
      (fun r w => w = v ∧ r.2.2 = ip ∧ (dst = .kernel → r.1 ≠ -1) ∧
        (off + n < 2 ^ 32 → r.1 ≠ -1 → r.1 = (min n (ip.size.toNat - off) : ℕ) ∧
          r.2.1 = bytesFrom v.blocks ip off (min n (ip.size.toNat - off)))) v := by
  unfold readi
  by_cases hoff : off > ip.size.toNat ∨ (off + n) % 2 ^ 32 < off
  · rw [if_pos hoff]
    refine .ret ⟨rfl, rfl, by simp, fun h32 _ => ?_⟩
    have hmin : min n (ip.size.toNat - off) = 0 := by omega
    simp [hmin, bytesFrom]
  · have hsize := ip.size.isLt
    rw [if_neg hoff]
    set n' := if (off + n) % 2 ^ 32 > ip.size.toNat then ip.size.toNat - off else n with hn'
    have hend : off + (n' - 0) ≤ ip.size.toNat := by
      rw [hn']
      split_ifs <;> omega
    refine (readiLoop_spec hfree n' 0 off [] (hm.on hend) (by omega) (Nat.zero_le _)).mono ?_
    rintro r w ⟨hw, hip, hk, hr⟩
    refine ⟨hw, hip, hk, fun h32 h => ?_⟩
    have hmin : n' = min n (ip.size.toNat - off) := by
      rw [hn', Nat.mod_eq_of_lt h32]
      split_ifs <;> omega
    rw [← hmin]
    simpa using hr h

theorem readi_within (sb : Superblock) (dst : Dst) (hfree : v.Free)
    (hend : off + n ≤ ip.size.toNat) (hm : MappedOn v.blocks ip off n) :
    (readi sb ip dst off n).Returns readInterp
      (fun r w => w = v ∧ r.2.2 = ip ∧ (dst = .kernel → r.1 ≠ -1) ∧
        (r.1 ≠ -1 → r.1 = n ∧ r.2.1 = bytesFrom v.blocks ip off n)) v := by
  have hsize := ip.size.isLt
  unfold readi
  simp only [Nat.mod_eq_of_lt (hend.trans_lt hsize)]
  rw [if_neg (by omega), if_neg (by omega)]
  refine (readiLoop_spec hfree n 0 off [] hm (by omega) (Nat.zero_le _)).mono ?_
  rintro r w ⟨hw, hip, hk, hr⟩
  exact ⟨hw, hip, hk, by simpa using hr⟩

end Xv6.Fs
