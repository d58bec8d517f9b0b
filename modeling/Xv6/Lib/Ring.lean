import Mathlib.Data.BitVec
import Mathlib.Tactic

/-! Ring buffers with free-running indices that wrap: `lo` is the next entry to take and `hi` the next
to put, and the place of an index in the ring is its remainder modulo the number of entries. -/
namespace Xv6.Lib.Ring

variable {α : Type*} {w n : ℕ} {ring ring' : ℕ → α} {lo hi : BitVec w}

def slot (n : ℕ) (i : BitVec w) : ℕ := i.toNat % n

def count (lo hi : BitVec w) : ℕ := (hi - lo).toNat

def window (n : ℕ) (ring : ℕ → α) (lo hi : BitVec w) : List α :=
  (List.range (count lo hi)).map fun i => ring (slot n (lo + BitVec.ofNat w i))

@[simp] theorem count_self (lo : BitVec w) : count lo lo = 0 := by simp [count]

@[simp] theorem window_self (ring : ℕ → α) (lo : BitVec w) : window n ring lo lo = [] := by
  simp [window]

@[simp] theorem length_window : (window n ring lo hi).length = count lo hi := by simp [window]

theorem count_eq_zero : count lo hi = 0 ↔ lo = hi := by
  constructor
  · intro h
    have hz : hi - lo = 0#w := BitVec.eq_of_toNat_eq (by simpa [count] using h)
    exact (sub_eq_zero.mp hz).symm
  · rintro rfl
    exact count_self lo

theorem add_count : lo + BitVec.ofNat w (count lo hi) = hi := by
  rw [count, BitVec.ofNat_toNat, BitVec.setWidth_eq, BitVec.add_comm, BitVec.sub_add_cancel]

theorem count_succ (h : count lo hi + 1 < 2 ^ w) : count lo (hi + 1) = count lo hi + 1 := by
  unfold count at h ⊢
  have hw : 1 < 2 ^ w := by omega
  rw [add_sub_right_comm, BitVec.toNat_add, show (1 : BitVec w).toNat = 1 from Nat.mod_eq_of_lt hw,
    Nat.mod_eq_of_lt h]

theorem count_pop (h : lo ≠ hi) : count lo hi = count (lo + 1) hi + 1 := by
  have hpos : 0 < count lo hi := by
    rcases Nat.eq_zero_or_pos (count lo hi) with hz | hp
    · exact absurd (count_eq_zero.mp hz) h
    · exact hp
  unfold count at hpos ⊢
  have hlt := (hi - lo).isLt
  have hw : 1 < 2 ^ w := by omega
  have hone : (1 : BitVec w).toNat = 1 := Nat.mod_eq_of_lt hw
  have hle : (1 : BitVec w) ≤ hi - lo := BitVec.le_def.mpr (by omega)
  rw [← sub_sub, BitVec.toNat_sub_of_le hle, hone]
  omega

theorem count_pred (h : lo ≠ hi) : count lo hi = count lo (hi - 1) + 1 := by
  have hpop := count_pop h
  have hshift : count (lo + 1) hi = count lo (hi - 1) := by
    unfold count
    rw [sub_right_comm, sub_sub]
  rw [hpop, hshift]

theorem count_add {mid : BitVec w} (h : count lo mid + count mid hi < 2 ^ w) :
    count lo hi = count lo mid + count mid hi := by
  have hsum : hi - lo = (mid - lo) + (hi - mid) := by
    rw [add_comm, sub_add_sub_cancel]
  unfold count at h ⊢
  rw [hsum, BitVec.toNat_add, Nat.mod_eq_of_lt h]

theorem count_sub {mid : BitVec w} (h : count lo mid ≤ count lo hi) :
    count mid hi = count lo hi - count lo mid := by
  have hdiff : hi - mid = (hi - lo) - (mid - lo) := (sub_sub_sub_cancel_right hi mid lo).symm
  unfold count at h ⊢
  rw [hdiff, BitVec.toNat_sub_of_le (BitVec.le_def.mpr h)]

theorem window_append {mid : BitVec w} (h : count lo mid + count mid hi < 2 ^ w) :
    window n ring lo hi = window n ring lo mid ++ window n ring mid hi := by
  rw [window, count_add h, List.range_add, List.map_append, List.map_map, window, window]
  congr 1
  apply List.map_congr_left
  intro i _
  have hmid : lo + BitVec.ofNat w (count lo mid + i) = mid + BitVec.ofNat w i := by
    rw [BitVec.ofNat_add, ← BitVec.add_assoc, add_count]
  rw [Function.comp_apply, hmid]

theorem slot_add_ne (hn : n ∣ 2 ^ w) {i j : ℕ} (hi : i < j) (hj : j < i + n) :
    slot n (lo + BitVec.ofNat w i) ≠ slot n (lo + BitVec.ofNat w j) := by
  have hmod : ∀ i, slot n (lo + BitVec.ofNat w i) = (lo.toNat + i) % n := by
    intro i
    rw [slot, BitVec.toNat_add, BitVec.toNat_ofNat, Nat.add_mod_mod, Nat.mod_mod_of_dvd _ hn]
  rw [hmod, hmod]
  intro he
  have hd : n ∣ (lo.toNat + j) - (lo.toNat + i) := (Nat.modEq_iff_dvd' (by omega)).mp he
  have := Nat.le_of_dvd (by omega) hd
  omega

theorem window_congr (h : ∀ i < count lo hi, ring' (slot n (lo + BitVec.ofNat w i)) =
    ring (slot n (lo + BitVec.ofNat w i))) : window n ring' lo hi = window n ring lo hi := by
  apply List.map_congr_left
  intro i hi
  exact h i (List.mem_range.mp hi)

theorem window_update_of_le (hn : n ∣ 2 ^ w) {mid : BitVec w} (hmid : count lo mid ≤ count lo hi)
    (h : count lo hi < n) (x : α) :
    window n (Function.update ring (slot n hi) x) lo mid = window n ring lo mid := by
  apply window_congr
  intro i hi'
  rw [Function.update_of_ne]
  rw [← show lo + BitVec.ofNat w (count lo hi) = hi from add_count]
  exact slot_add_ne hn (by omega) (by omega)

theorem window_update (hn : n ∣ 2 ^ w) (h : count lo hi < n) (x : α) :
    window n (Function.update ring (slot n hi) x) lo hi = window n ring lo hi :=
  window_update_of_le hn le_rfl h x

theorem window_succ (h : count lo hi + 1 < 2 ^ w) :
    window n ring lo (hi + 1) = window n ring lo hi ++ [ring (slot n hi)] := by
  rw [window, count_succ h, List.range_succ, List.map_append, List.map_singleton, add_count, window]

theorem window_pop (h : lo ≠ hi) :
    window n ring lo hi = ring (slot n lo) :: window n ring (lo + 1) hi := by
  rw [window, count_pop h, List.range_succ_eq_map, List.map_cons, List.map_map, window]
  congr 1
  · simp
  · apply List.map_congr_left
    intro i _
    simp only [Function.comp_apply]
    congr 2
    rw [BitVec.add_assoc, Nat.succ_eq_add_one, Nat.add_comm, BitVec.ofNat_add]
    rfl

section Array

variable [NeZero n] {buf : Fin n → α}

/-- The place of an index, in an array of `n` entries. -/
def cell (n : ℕ) [NeZero n] (i : BitVec w) : Fin n := ⟨slot n i, Nat.mod_lt _ (Nat.pos_of_neZero n)⟩

def ofArray (buf : Fin n → α) (i : ℕ) : α := buf (Fin.ofNat n i)

@[simp] theorem ofArray_slot (i : BitVec w) : ofArray buf (slot n i) = buf (cell n i) := by
  unfold ofArray
  congr 1
  exact Fin.ext (Nat.mod_mod _ _)

theorem ofArray_update (x : α) (i j : BitVec w) :
    ofArray (Function.update buf (cell n i) x) (slot n j) =
      Function.update (ofArray buf) (slot n i) x (slot n j) := by
  rw [ofArray_slot]
  by_cases h : cell n j = cell n i
  · have hs : slot n j = slot n i := congrArg Fin.val h
    rw [h, hs, Function.update_self, Function.update_self]
  · have hs : slot n j ≠ slot n i := fun he => h (Fin.ext he)
    rw [Function.update_of_ne h, Function.update_of_ne hs, ofArray_slot]

def entries (buf : Fin n → α) (lo hi : BitVec w) : List α := window n (ofArray buf) lo hi

theorem entries_update (hn : n ∣ 2 ^ w) {mid : BitVec w} (hmid : count lo mid ≤ count lo hi)
    (h : count lo hi < n) (x : α) :
    entries (Function.update buf (cell n hi) x) lo mid = entries buf lo mid := by
  refine (window_congr fun i _ => ?_).trans (window_update_of_le hn hmid h x)
  exact ofArray_update x hi _

theorem entries_pop (h : lo ≠ hi) :
    entries buf lo hi = buf (cell n lo) :: entries buf (lo + 1) hi := by
  rw [entries, window_pop h, ofArray_slot]
  rfl

end Array

end Xv6.Lib.Ring
