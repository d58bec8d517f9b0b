import Mathlib.Tactic

/-! Computations with a state that may fail: what holds when one of them ends. -/
namespace Xv6.Lib

variable {σ ε α β : Type}

/-- The computation ends with a result and a state that satisfy `Q`, or fails as `E` allows. -/
def Ensures (E : ε → Prop) (x : StateT σ (Except ε) α) (Q : α → σ → Prop) (s : σ) : Prop :=
  match x s with
  | .ok (a, s') => Q a s'
  | .error e => E e

def Gives (x : StateT σ (Except ε) α) (s : σ) (a : α) (s' : σ) : Prop := x s = .ok (a, s')

variable {E : ε → Prop} {x : StateT σ (Except ε) α} {f : α → StateT σ (Except ε) β}
  {Q : α → σ → Prop} {R : β → σ → Prop} {s s' s'' : σ} {a : α} {b : β} {e : ε}

theorem bind_of_ok (h : x s = .ok (a, s')) : (x >>= f) s = f a s' := by
  simp [Bind.bind, StateT.bind, Except.bind, h]

namespace Ensures

theorem pure (h : Q a s) : Ensures E (pure a) Q s := h

theorem throw (h : E e) : Ensures E (throw e : StateT σ (Except ε) α) Q s := h

theorem bind (hx : Ensures E x Q s) (hf : ∀ a s', Q a s' → Ensures E (f a) R s') :
    Ensures E (x >>= f) R s := by
  unfold Ensures at *
  cases hr : x s with
  | error e =>
    rw [hr] at hx
    simpa [Bind.bind, StateT.bind, Except.bind, hr] using hx
  | ok r =>
    rw [hr] at hx
    simpa [Bind.bind, StateT.bind, Except.bind, hr] using hf r.1 r.2 hx

theorem mono {Q' : α → σ → Prop} (hx : Ensures E x Q s) (h : ∀ a s', Q a s' → Q' a s') :
    Ensures E x Q' s := by
  unfold Ensures at *
  split at hx
  · exact h _ _ hx
  · exact hx

theorem bind_ok (hx : x s = .ok (a, s')) (hf : Ensures E (f a) R s') : Ensures E (x >>= f) R s := by
  unfold Ensures at *
  rwa [bind_of_ok hx]

theorem weaken {E' : ε → Prop} (hx : Ensures E x Q s) (h : ∀ e, E e → E' e) : Ensures E' x Q s := by
  unfold Ensures at *
  split at hx
  · exact hx
  · exact h _ hx

theorem of_gives (hx : Gives x s a s') (h : Q a s') : Ensures E x Q s := by
  unfold Ensures
  rw [hx]
  exact h

theorem of_ok (hx : Ensures E x Q s) (h : x s = .ok (a, s')) : Q a s' := by
  unfold Ensures at hx
  rwa [h] at hx

theorem exists_ok (hx : Ensures (fun _ => False) x Q s) : ∃ a s', x s = .ok (a, s') ∧ Q a s' := by
  cases hr : x s with
  | error e =>
    unfold Ensures at hx
    rw [hr] at hx
    exact hx.elim
  | ok r => exact ⟨r.1, r.2, rfl, hx.of_ok hr⟩

theorem of_error (hx : Ensures E x Q s) (h : x s = .error e) : E e := by
  unfold Ensures at hx
  rwa [h] at hx

end Ensures

namespace Gives

theorem pure : Gives (pure a : StateT σ (Except ε) α) s a s := rfl

theorem bind (hx : Gives x s a s') (hf : Gives (f a) s' b s'') : Gives (x >>= f) s b s'' := by
  unfold Gives at *
  simpa [Bind.bind, StateT.bind, Except.bind, hx] using hf

end Gives

end Xv6.Lib
