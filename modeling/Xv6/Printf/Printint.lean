import Xv6.Lib.Numeral
import Xv6.Str

/-! `printint` of `kernel/printf.c` and of `user/printf.c`: the same code on 64 and on 32 bits. -/
namespace Xv6.Printf

open Lib

inductive Base
  | dec
  | hex

def Base.val : Base → ℕ
  | .dec => 10
  | .hex => 16

theorem Base.one_lt (base : Base) : 1 < base.val := by
  cases base <;> decide

def digits (d : ℕ) : UInt8 := (lit "0123456789abcdef").getD d 0

def userDigits (d : ℕ) : UInt8 := (lit "0123456789ABCDEF").getD d 0

/-- `do { buf[i++] = digits[x % base]; } while((x /= base) != 0);` where `buf` is memory from the array
on, which may end before the number does. -/
def storeDigits (digits : ℕ → UInt8) (base : Base) (buf : ℕ → UInt8) (i x : ℕ) :
    (ℕ → UInt8) × ℕ :=
  if x / base.val = 0 then (Function.update buf i (digits (x % base.val)), i + 1)
  else storeDigits digits base (Function.update buf i (digits (x % base.val))) (i + 1) (x / base.val)
termination_by x
decreasing_by
  apply Nat.div_lt_self _ base.one_lt
  exact Nat.pos_of_ne_zero fun h0 => by simp_all

/-- What a call of `printint` prints, and the number of cells from `buf[0]` on that it writes. -/
structure Printed where
  chars : Str
  cells : ℕ

def printint {w : ℕ} (digits : ℕ → UInt8) (xx : BitVec w) (base : Base) (sign : Bool) : Printed :=
  let neg := sign && decide (xx.toInt < 0)
  let x := if neg then (-xx).toNat else xx.toNat
  let (buf, i) := storeDigits digits base (fun _ => 0) 0 x
  let (buf, i) := if neg then (Function.update buf i 45, i + 1) else (buf, i)
  ⟨(List.range i).reverse.map buf, i⟩

theorem map_range_update (buf : ℕ → UInt8) (i : ℕ) (c : UInt8) :
    (List.range (i + 1)).map (Function.update buf i c) = (List.range i).map buf ++ [c] := by
  rw [List.range_succ, List.map_append]
  congr 1
  · apply List.map_congr_left
    intro j hj
    exact Function.update_of_ne (List.mem_range.mp hj).ne _ _
  · simp

theorem storeDigits_eq (digits : ℕ → UInt8) (base : Base) (buf : ℕ → UInt8) (i x : ℕ) :
    (storeDigits digits base buf i x).2 = i + (numeral digits base.val x).length ∧
      (List.range (storeDigits digits base buf i x).2).map (storeDigits digits base buf i x).1 =
        (List.range i).map buf ++ (numeral digits base.val x).reverse := by
  fun_induction storeDigits digits base buf i x with
  | case1 buf i x h =>
    have hlt : x < base.val := by
      rcases Nat.div_eq_zero_iff.mp h with h0 | hlt
      · exact absurd h0 (by have := base.one_lt; omega)
      · exact hlt
    rw [numeral_of_lt hlt, Nat.mod_eq_of_lt hlt]
    exact ⟨rfl, map_range_update buf i _⟩
  | case2 buf i x h ih =>
    have hle : base.val ≤ x := by
      by_contra hlt
      exact h (Nat.div_eq_of_lt (by omega))
    rw [numeral_of_le base.one_lt hle, List.length_append, List.reverse_append]
    rw [ih.2, map_range_update, ih.1]
    simp only [List.length_singleton, List.reverse_singleton, List.append_assoc,
      List.singleton_append, and_true]
    omega

def wordNumeral {w : ℕ} (digits : ℕ → UInt8) (xx : BitVec w) (base : Base) (sign : Bool) : Str :=
  if sign then signedNumeral digits 45 base.val xx.toInt else numeral digits base.val xx.toNat

theorem toNat_neg_of_toInt_neg {w : ℕ} {xx : BitVec w} (h : xx.toInt < 0) :
    (-xx).toNat = xx.toInt.natAbs := by
  have hlt := xx.isLt
  rw [BitVec.toInt_eq_toNat_cond] at h ⊢
  split_ifs at h ⊢ with hc
  · omega
  · rw [BitVec.toNat_neg, Nat.mod_eq_of_lt (by omega)]
    omega

theorem natAbs_toInt_of_nonneg {w : ℕ} {xx : BitVec w} (h : 0 ≤ xx.toInt) :
    xx.toInt.natAbs = xx.toNat := by
  have hlt := xx.isLt
  rw [BitVec.toInt_eq_toNat_cond] at h ⊢
  split_ifs at h ⊢ with hc
  · rfl
  · omega

/-- `printint` prints the numeral of its argument and writes one cell for each character. -/
theorem printint_eq {w : ℕ} (digits : ℕ → UInt8) (xx : BitVec w) (base : Base) (sign : Bool) :
    printint digits xx base sign =
      ⟨wordNumeral digits xx base sign, (wordNumeral digits xx base sign).length⟩ := by
  have hstore := storeDigits_eq digits base (fun _ => 0) 0
  unfold printint wordNumeral signedNumeral
  by_cases hneg : sign = true ∧ xx.toInt < 0
  · obtain ⟨hsign, hlt⟩ := hneg
    obtain ⟨hcells, hbuf⟩ := hstore (-xx).toNat
    rw [toNat_neg_of_toInt_neg hlt] at hcells hbuf
    simp only [hsign, hlt, decide_true, Bool.and_true, if_true, toNat_neg_of_toInt_neg hlt]
    rw [List.map_reverse, map_range_update, hbuf, hcells]
    simp
  · obtain ⟨hcells, hbuf⟩ := hstore xx.toNat
    have hfalse : (sign && decide (xx.toInt < 0)) = false := by simpa using hneg
    have hnum : (if sign = true then
        if xx.toInt < 0 then 45 :: numeral digits base.val xx.toInt.natAbs
        else numeral digits base.val xx.toInt.natAbs
      else numeral digits base.val xx.toNat) = numeral digits base.val xx.toNat := by
      split_ifs with hs hlt
      · exact absurd ⟨hs, hlt⟩ hneg
      · rw [natAbs_toInt_of_nonneg (by omega)]
      · rfl
    rw [hnum]
    simp only [hfalse, Bool.false_eq_true, if_false]
    rw [List.map_reverse, hbuf, hcells]
    simp

end Xv6.Printf
