import Mathlib.Algebra.BigOperators.Group.Finset.Basic
import Mathlib.Data.Fintype.BigOperators
import Mathlib.Tactic

/-! Transition systems: reachable states, the invariant rule, and sums over a family of
processes of which one changes its state. -/
namespace Xv6.Lib

structure System (σ : Type*) where
  init : σ → Prop
  step : σ → σ → Prop

namespace System

variable {σ : Type*} {S : System σ} {s t : σ}

inductive Reachable (S : System σ) : σ → Prop
  | init {s : σ} (h : S.init s) : Reachable S s
  | step {s t : σ} (h : Reachable S s) (hst : S.step s t) : Reachable S t

/-- A property that holds initially and that every step from a reachable state keeps. -/
theorem Reachable.invariant {I : σ → Prop} (h0 : ∀ s, S.init s → I s)
    (hs : ∀ s t, S.Reachable s → I s → S.step s t → I t) (h : S.Reachable s) : I s := by
  induction h with
  | init h => exact h0 _ h
  | step h hst ih => exact hs _ _ h ih hst

/-- States that some run from `s` reaches. -/
inductive Run (S : System σ) (s : σ) : σ → Prop
  | refl : Run S s s
  | tail {t u : σ} (h : Run S s t) (hst : S.step t u) : Run S s u

def Moves (S : System σ) (s t : σ) : Prop := t = s ∨ S.step s t

theorem Run.trans {u : σ} (h₁ : S.Run s t) (h₂ : S.Run t u) : S.Run s u := by
  induction h₂ with
  | refl => exact h₁
  | tail _ hst ih => exact ih.tail hst

theorem Run.single (h : S.step s t) : S.Run s t := Run.refl.tail h

theorem Reachable.run (hs : S.Reachable s) (h : S.Run s t) : S.Reachable t := by
  induction h with
  | refl => exact hs
  | tail _ hst ih => exact ih.step hst

end System

theorem sum_eq_of_eq_off {ι : Type*} [Fintype ι] [DecidableEq ι] {f g : ι → ℤ} (p : ι)
    (h : ∀ q, q ≠ p → f q = g q) : ∑ q, f q = ∑ q, g q - g p + f p := by
  have hf := Finset.add_sum_erase Finset.univ f (Finset.mem_univ p)
  have hg := Finset.add_sum_erase Finset.univ g (Finset.mem_univ p)
  have he : ∑ q ∈ Finset.univ.erase p, f q = ∑ q ∈ Finset.univ.erase p, g q :=
    Finset.sum_congr rfl fun q hq => h q (Finset.ne_of_mem_erase hq)
  omega

end Xv6.Lib
