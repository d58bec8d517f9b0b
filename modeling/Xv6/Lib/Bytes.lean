import Mathlib.Data.Nat.Bitwise
import Mathlib.Tactic

/-! Arrays of bytes of a fixed size: reading and overwriting a range, and little-endian numbers. -/
namespace Xv6.Lib

/-- The number with little-endian digits `l`. -/
def leValue : List UInt8 → ℕ
  | [] => 0
  | b :: l => b.toNat + 256 * leValue l

/-- The `w` low digits of `v`. -/
def leBytes : ℕ → ℕ → List UInt8
  | 0, _ => []
  | w + 1, v => UInt8.ofNat v :: leBytes w (v / 256)

@[simp] theorem length_leBytes (w v : ℕ) : (leBytes w v).length = w := by
  induction w generalizing v with
  | zero => rfl
  | succ w ih => simp [leBytes, ih]

theorem leValue_lt (l : List UInt8) : leValue l < 256 ^ l.length := by
  induction l with
  | nil => simp [leValue]
  | cons b l ih =>
    have hb := b.toNat_lt
    rw [List.length_cons, pow_succ', leValue]
    omega

theorem leValue_leBytes (w v : ℕ) : leValue (leBytes w v) = v % 256 ^ w := by
  induction w generalizing v with
  | zero => simp [leBytes, leValue, Nat.mod_one]
  | succ w ih =>
    rw [leBytes, leValue, ih, pow_succ', Nat.mod_mul]
    simp

abbrev Bytes (n : ℕ) : Type := Fin n → UInt8

namespace Bytes

variable {n : ℕ} (c : Bytes n) (off : ℕ) (l : List UInt8)

def get (i : ℕ) : UInt8 := if h : i < n then c ⟨i, h⟩ else 0

def slice (len : ℕ) : List UInt8 := (List.range len).map fun k => c.get (off + k)

/-- The bytes from `off` on replaced by `l`. -/
def blit : Bytes n := fun j =>
  if off ≤ j ∧ j < off + l.length then l.getD (j - off) 0 else c j

/-- The `w`-byte number at `off`. -/
def getLE (w : ℕ) : ℕ := leValue (c.slice off w)

def setLE (w v : ℕ) : Bytes n := c.blit off (leBytes w v)

variable {c off l}

theorem ext_get {d : Bytes n} (h : ∀ i < n, c.get i = d.get i) : c = d := by
  funext i
  simpa [get] using h i i.isLt

theorem get_blit (i : ℕ) :
    (c.blit off l).get i = if off ≤ i ∧ i < off + l.length ∧ i < n then l.getD (i - off) 0
      else c.get i := by
  unfold get blit
  by_cases hi : i < n
  · simp [hi]
  · simp [hi]

theorem get_blit_of_disjoint {i : ℕ} (h : i < off ∨ off + l.length ≤ i) :
    (c.blit off l).get i = c.get i := by
  rw [get_blit, if_neg (by omega)]

theorem blit_nil (c : Bytes n) (off : ℕ) : c.blit off [] = c := by
  apply ext_get
  intro i _
  apply get_blit_of_disjoint
  rw [List.length_nil]
  omega

@[simp] theorem length_slice (len : ℕ) : (c.slice off len).length = len := by simp [slice]

theorem getElem_slice {len k : ℕ} (h : k < (c.slice off len).length) :
    (c.slice off len)[k] = c.get (off + k) := by
  simp [slice]

theorem slice_congr {d : Bytes n} {len : ℕ}
    (h : ∀ i, off ≤ i → i < off + len → c.get i = d.get i) : c.slice off len = d.slice off len := by
  unfold slice
  apply List.map_congr_left
  intro k hk
  have := List.mem_range.mp hk
  exact h (off + k) (by omega) (by omega)

theorem slice_blit_self (h : off + l.length ≤ n) : (c.blit off l).slice off l.length = l := by
  apply List.ext_getElem
  · simp
  · intro k hk hl
    rw [getElem_slice, get_blit, if_pos (by omega), Nat.add_sub_cancel_left]
    simp [hl]

theorem slice_blit_of_disjoint {o len : ℕ} (h : o + len ≤ off ∨ off + l.length ≤ o) :
    (c.blit off l).slice o len = c.slice o len := by
  apply slice_congr
  intro i h₁ h₂
  exact get_blit_of_disjoint (by omega)

theorem getLE_lt (w : ℕ) : c.getLE off w < 256 ^ w := by
  simpa [getLE] using leValue_lt (c.slice off w)

theorem leValue_replicate_zero (w : ℕ) : leValue (List.replicate w 0) = 0 := by
  induction w with
  | zero => rfl
  | succ w ih => simp [List.replicate_succ, leValue, ih]

theorem getLE_zero (off w : ℕ) : getLE (fun _ => 0 : Bytes n) off w = 0 := by
  have hs : slice (fun _ => 0 : Bytes n) off w = List.replicate w 0 := by
    apply List.ext_getElem
    · simp
    · intro k _ _
      simp [getElem_slice, get]
  rw [getLE, hs, leValue_replicate_zero]

theorem getLE_setLE_self {w v : ℕ} (h : off + w ≤ n) :
    (c.setLE off w v).getLE off w = v % 256 ^ w := by
  have hs := slice_blit_self (c := c) (l := leBytes w v) (by simpa using h)
  rw [length_leBytes] at hs
  rw [getLE, setLE, hs, leValue_leBytes]

theorem getLE_setLE_of_disjoint {o w u v : ℕ} (h : o + w ≤ off ∨ off + u ≤ o) :
    (c.setLE off u v).getLE o w = c.getLE o w := by
  unfold getLE setLE
  rw [slice_blit_of_disjoint (by simpa using h)]

theorem get_setLE_of_disjoint {i w v : ℕ} (h : i < off ∨ off + w ≤ i) :
    (c.setLE off w v).get i = c.get i :=
  get_blit_of_disjoint (by simpa using h)

/-- The 4-byte numbers from `off` on replaced by `vs`. -/
def setWords (c : Bytes n) (off : ℕ) : List ℕ → Bytes n
  | [] => c
  | v :: vs => (c.setLE off 4 v).setWords (off + 4) vs

theorem get_setWords_of_disjoint {i : ℕ} (off : ℕ) (vs : List ℕ) (c : Bytes n)
    (h : i < off ∨ off + 4 * vs.length ≤ i) : (c.setWords off vs).get i = c.get i := by
  induction vs generalizing off c with
  | nil => rfl
  | cons v vs ih =>
    rw [List.length_cons] at h
    rw [setWords, ih _ _ (by omega), get_setLE_of_disjoint (by omega)]

theorem getLE_setWords_of_disjoint {o w : ℕ} (off : ℕ) (vs : List ℕ) (c : Bytes n)
    (h : o + w ≤ off ∨ off + 4 * vs.length ≤ o) :
    (c.setWords off vs).getLE o w = c.getLE o w := by
  unfold getLE
  rw [slice_congr]
  intro i h₁ h₂
  exact get_setWords_of_disjoint off vs c (by omega)

theorem getLE_setWords (off : ℕ) (vs : List ℕ) (c : Bytes n) (hlen : off + 4 * vs.length ≤ n)
    {k : ℕ} (hk : k < vs.length) : (c.setWords off vs).getLE (off + 4 * k) 4 = vs[k] % 2 ^ 32 := by
  induction vs generalizing off c k with
  | nil => simp at hk
  | cons v vs ih =>
    simp only [List.length_cons] at hlen hk
    rw [setWords]
    cases k with
    | zero =>
      rw [show off + 4 * 0 = off by omega, getLE_setWords_of_disjoint _ _ _ (by omega),
        getLE_setLE_self (by omega), List.getElem_cons_zero]
      norm_num
    | succ k =>
      rw [show off + 4 * (k + 1) = off + 4 + 4 * k by omega, List.getElem_cons_succ]
      exact ih (off + 4) _ (by omega) (by omega)

def mask (i : ℕ) : UInt8 := 1 <<< UInt8.ofNat i

theorem toNat_mask {i : ℕ} (hi : i < 8) : (mask i).toNat = 2 ^ i := by
  have : ∀ i : Fin 8, (mask i).toNat = 2 ^ (i : ℕ) := by decide
  exact this ⟨i, hi⟩

theorem and_mask_bne_zero (x : UInt8) {i : ℕ} (hi : i < 8) :
    (x &&& mask i != 0) = x.toNat.testBit i := by
  have h : (x &&& mask i).toNat = (x.toNat.testBit i).toNat * 2 ^ i := by
    rw [UInt8.toNat_and, toNat_mask hi, Nat.and_two_pow]
  rw [Bool.eq_iff_iff, bne_iff_ne, Ne, ← UInt8.toNat_inj, h]
  cases x.toNat.testBit i <;> simp

variable (c) (i : ℕ)

/-- Bit `i`, counted through the bytes from the low end of each. -/
def testBit : Bool := c.get (i / 8) &&& mask (i % 8) != 0

def setBit : Bytes n := c.blit (i / 8) [c.get (i / 8) ||| mask (i % 8)]

variable {c i}

theorem get_blit_singleton {i j : ℕ} {x : UInt8} (hi : i < n) :
    (c.blit i [x]).get j = if j = i then x else c.get j := by
  rw [get_blit]
  by_cases h : j = i
  · subst h
    simp [hi]
  · rw [if_neg (by simp; omega), if_neg h]

theorem testBit_setBit (h : i / 8 < n) (j : ℕ) :
    (c.setBit i).testBit j = (decide (j = i) || c.testBit j) := by
  unfold testBit setBit
  rw [get_blit_singleton h, and_mask_bne_zero _ (by omega), and_mask_bne_zero _ (by omega)]
  split_ifs with hb
  · rw [UInt8.toNat_or, Nat.testBit_or, toNat_mask (by omega), Nat.testBit_two_pow, hb,
      Bool.or_comm]
    congr 1
    rw [decide_eq_decide]
    omega
  · rw [decide_eq_false (by rintro rfl; exact hb rfl), Bool.false_or]

end Bytes
end Xv6.Lib
