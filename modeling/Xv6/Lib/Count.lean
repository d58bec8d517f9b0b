import Mathlib.Algebra.BigOperators.Group.Finset.Basic
import Mathlib.Algebra.Order.BigOperators.Group.Finset
import Mathlib.Tactic

/-! Counting in lists and sums where one place changes. -/
namespace Xv6.Lib

variable {α : Type*} {P R : α → Bool} {l : List α} {p q : α}

theorem countP_eq_of_eq_off (hl : l.Nodup) (hp : p ∈ l) (h : ∀ x ∈ l, x ≠ p → P x = R x) :
    l.countP P + (R p).toNat = l.countP R + (P p).toNat := by
  induction l with
  | nil => simp at hp
  | cons x l ih =>
    rw [List.nodup_cons] at hl
    by_cases hx : x = p
    · subst hx
      have htail : l.countP P = l.countP R := by
        apply List.countP_congr
        intro y hy
        have hyx : y ≠ x := by
          rintro rfl
          exact hl.1 hy
        rw [h y (List.mem_cons_of_mem _ hy) hyx]
      rw [List.countP_cons, List.countP_cons, htail]
      cases P x <;> cases R x <;> simp
    · have hmem : p ∈ l := by simpa [Ne.symm hx] using hp
      have htail := ih hl.2 hmem fun y hy => h y (List.mem_cons_of_mem _ hy)
      rw [List.countP_cons, List.countP_cons, h x List.mem_cons_self hx]
      omega

theorem countP_pos_of_mem (hp : p ∈ l) (h : P p = true) : 1 ≤ l.countP P :=
  List.countP_pos_iff.mpr ⟨p, hp, h⟩

theorem two_le_countP (hp : p ∈ l) (hq : q ∈ l) (hpq : p ≠ q) (h₁ : P p = true) (h₂ : P q = true) :
    2 ≤ l.countP P := by
  induction l with
  | nil => simp at hp
  | cons x l ih =>
    rw [List.countP_cons]
    by_cases hx : x = p
    · subst hx
      have hmem : q ∈ l := by simpa [Ne.symm hpq] using hq
      have := countP_pos_of_mem hmem h₂
      simp only [h₁, if_true]
      omega
    · have hpl : p ∈ l := by simpa [Ne.symm hx] using hp
      by_cases hxq : x = q
      · subst hxq
        have := countP_pos_of_mem hpl h₁
        simp only [h₂, if_true]
        omega
      · have hql : q ∈ l := by simpa [Ne.symm hxq] using hq
        have := ih hpl hql
        omega

theorem sum_add_eq_of_eq_off {ι : Type*} [DecidableEq ι] {s : Finset ι} {f g : ι → ℕ} {p : ι}
    (hp : p ∈ s) (h : ∀ q ∈ s, q ≠ p → f q = g q) : ∑ q ∈ s, f q + g p = ∑ q ∈ s, g q + f p := by
  have hf := Finset.add_sum_erase s f hp
  have hg := Finset.add_sum_erase s g hp
  have he : ∑ q ∈ s.erase p, f q = ∑ q ∈ s.erase p, g q := by
    apply Finset.sum_congr rfl
    intro q hq
    exact h q (Finset.mem_of_mem_erase hq) (Finset.ne_of_mem_erase hq)
  omega

theorem add_le_sum {ι : Type*} [DecidableEq ι] {s : Finset ι} {f : ι → ℕ} {p q : ι} (hp : p ∈ s)
    (hq : q ∈ s) (hpq : p ≠ q) : f p + f q ≤ ∑ x ∈ s, f x := by
  have hsum := Finset.add_sum_erase s f hp
  have hle := Finset.single_le_sum (f := f) (fun _ _ => Nat.zero_le _)
    (Finset.mem_erase.mpr ⟨hpq.symm, hq⟩)
  omega

end Xv6.Lib
