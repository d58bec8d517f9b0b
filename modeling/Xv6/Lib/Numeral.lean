import Mathlib.Data.Nat.Digits.Lemmas
import Mathlib.Tactic

/-! Numerals: the digits of a number as characters, the most significant first. -/
namespace Xv6.Lib

variable {α : Type*} {digit : ℕ → α} {b v w k : ℕ}

def numeral (digit : ℕ → α) (b v : ℕ) : List α :=
  if v = 0 then [digit 0] else (Nat.digits b v).reverse.map digit

theorem numeral_of_lt (h : v < b) : numeral digit b v = [digit v] := by
  unfold numeral
  split_ifs with h0
  · rw [h0]
  · rw [Nat.digits_of_lt b v h0 h]
    rfl

theorem numeral_of_le (hb : 1 < b) (h : b ≤ v) :
    numeral digit b v = numeral digit b (v / b) ++ [digit (v % b)] := by
  have hv : v ≠ 0 := by omega
  have hq : v / b ≠ 0 := (Nat.div_pos h (by omega)).ne'
  rw [numeral, if_neg hv, numeral, if_neg hq, Nat.digits_def' hb (Nat.pos_of_ne_zero hv),
    List.reverse_cons, List.map_append]
  rfl

theorem map_numeral {β : Type*} (f : α → β) :
    (numeral digit b v).map f = numeral (fun d => f (digit d)) b v := by
  unfold numeral
  split_ifs
  · rfl
  · rw [List.map_map]
    rfl

theorem mem_numeral {c : α} (hb : 1 < b) (h : c ∈ numeral digit b v) : ∃ d < b, c = digit d := by
  unfold numeral at h
  split_ifs at h with h0
  · exact ⟨0, by omega, List.mem_singleton.mp h⟩
  · obtain ⟨d, hd, rfl⟩ := List.mem_map.mp h
    exact ⟨d, Nat.digits_lt_base hb (List.mem_reverse.mp hd), rfl⟩

theorem length_numeral_le_iff (digit : ℕ → α) (v : ℕ) (hb : 1 < b) (hk : 0 < k) :
    (numeral digit b v).length ≤ k ↔ v < b ^ k := by
  unfold numeral
  split_ifs with h0
  · rw [h0]
    exact iff_of_true hk (Nat.pow_pos (by omega))
  · rw [List.length_map, List.length_reverse]
    exact Nat.digits_length_le_iff hb v

theorem numeral_inj (hb : 1 < b) (hinj : ∀ c < b, ∀ d < b, digit c = digit d → c = d) :
    numeral digit b v = numeral digit b w ↔ v = w := by
  refine ⟨fun h => ?_, fun h => by rw [h]⟩
  induction v using Nat.strong_induction_on generalizing w with
  | _ v ih =>
    have hcons : ∀ u, b ≤ u → ∀ d, numeral digit b u ≠ [digit d] := by
      intro u hu d heq
      have hlen := (length_numeral_le_iff digit u hb Nat.one_pos).mp (by rw [heq]; rfl)
      rw [pow_one] at hlen
      omega
    by_cases hv : v < b
    · by_cases hw : w < b
      · rw [numeral_of_lt hv, numeral_of_lt hw] at h
        exact hinj v hv w hw (List.singleton_inj.mp h)
      · rw [numeral_of_lt hv] at h
        exact absurd h.symm (hcons w (by omega) v)
    · by_cases hw : w < b
      · rw [numeral_of_lt hw] at h
        exact absurd h (hcons v (by omega) w)
      · have hle : b ≤ v := by omega
        have hle' : b ≤ w := by omega
        rw [numeral_of_le hb hle, numeral_of_le hb hle'] at h
        obtain ⟨hq, hr⟩ := List.append_inj' h rfl
        have hdiv := ih (v / b) (Nat.div_lt_self (by omega) hb) hq
        have hmod := hinj _ (Nat.mod_lt v (by omega)) _ (Nat.mod_lt w (by omega))
          (List.singleton_inj.mp hr)
        rw [← Nat.div_add_mod v b, ← Nat.div_add_mod w b, hdiv, hmod]

/-- The numeral of an integer, with a minus sign in front of a negative one. -/
def signedNumeral (digit : ℕ → α) (minus : α) (b : ℕ) (z : ℤ) : List α :=
  if z < 0 then minus :: numeral digit b z.natAbs else numeral digit b z.natAbs

theorem length_signedNumeral_le_iff (digit : ℕ → α) (minus : α) (z : ℤ) (hb : 1 < b)
    (hk : 0 < k) :
    (signedNumeral digit minus b z).length ≤ k + 1 ↔
      -(b ^ k : ℕ) < z ∧ z < (b ^ (k + 1) : ℕ) := by
  have hneg := length_numeral_le_iff digit z.natAbs hb hk
  have hpos := length_numeral_le_iff digit z.natAbs hb (Nat.succ_pos k)
  unfold signedNumeral
  split_ifs with hz
  · rw [List.length_cons, Nat.succ_le_succ_iff, hneg]
    omega
  · have hpow : 0 < b ^ k := Nat.pow_pos (by omega)
    rw [hpos, Nat.succ_eq_add_one]
    omega

theorem numeral_eq_cons (digit : ℕ → α) (v : ℕ) (hb : 1 < b) :
    ∃ d < b, ∃ l, numeral digit b v = digit d :: l := by
  induction v using Nat.strong_induction_on with
  | _ v ih =>
    by_cases hv : v < b
    · exact ⟨v, hv, [], numeral_of_lt hv⟩
    · obtain ⟨d, hd, l, hl⟩ := ih (v / b) (Nat.div_lt_self (by omega) hb)
      rw [numeral_of_le hb (by omega), hl]
      exact ⟨d, hd, l ++ [digit (v % b)], rfl⟩

theorem signedNumeral_inj {minus : α} {y z : ℤ} (hb : 1 < b)
    (hinj : ∀ c < b, ∀ d < b, digit c = digit d → c = d) (hminus : ∀ d < b, digit d ≠ minus) :
    signedNumeral digit minus b y = signedNumeral digit minus b z ↔ y = z := by
  refine ⟨fun h => ?_, fun h => by rw [h]⟩
  have hne : ∀ u v, minus :: numeral digit b u ≠ numeral digit b v := by
    intro u v heq
    obtain ⟨d, hd, l, hl⟩ := numeral_eq_cons digit v hb
    rw [hl] at heq
    exact hminus d hd (List.cons.inj heq).1.symm
  unfold signedNumeral at h
  split_ifs at h with hy hz hz
  · have := (numeral_inj hb hinj).mp (List.cons.inj h).2
    omega
  · exact absurd h (hne _ _)
  · exact absurd h.symm (hne _ _)
  · have := (numeral_inj hb hinj).mp h
    omega

end Xv6.Lib
