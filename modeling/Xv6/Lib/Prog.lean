import Xv6.Lib.System

/-! Programs over an interface of operations, and a logic for what holds along their runs, the
states in the middle included. -/
namespace Xv6.Lib

/-- Operations, each with the type of its result. -/
structure Interface where
  Op : Type
  Result : Op → Type

inductive Prog (F : Interface) (α : Type) : Type where
  | ret (a : α)
  | op (o : F.Op) (k : F.Result o → Prog F α)

/-- What operations do to the states `σ` of a machine: where one does not fail, and its results. -/
structure Semantics (F : Interface) (σ : Type) where
  safe : F.Op → σ → Prop
  step : (o : F.Op) → σ → F.Result o → σ → Prop

/-- A machine that can be run: an operation fails with a message or has one result. -/
abbrev Interp (F : Interface) (σ : Type) : Type :=
  (o : F.Op) → σ → Except String (F.Result o × σ)

namespace Prog

variable {F : Interface} {σ : Type} {α β γ : Type} {M : Semantics F σ} {C : σ → Prop} {s : σ}

def bind : Prog F α → (α → Prog F β) → Prog F β
  | ret a, f => f a
  | op o k, f => op o fun r => (k r).bind f

instance : Monad (Prog F) where
  pure := ret
  bind := bind

@[simp] theorem pure_eq (a : α) : (pure a : Prog F α) = ret a := rfl

@[simp] theorem ret_bind (a : α) (f : α → Prog F β) : (ret a >>= f) = f a := rfl

@[simp] theorem op_bind (o : F.Op) (k : F.Result o → Prog F α) (f : α → Prog F β) :
    (op o k >>= f) = op o fun r => k r >>= f := rfl

@[simp] theorem bind_assoc (p : Prog F α) (f : α → Prog F β) (g : β → Prog F γ) :
    (p >>= f) >>= g = p >>= fun a => f a >>= g := by
  induction p with
  | ret a => rfl
  | op o k ih =>
    simp only [op_bind]
    congr 1
    funext r
    exact ih r

theorem bind_ret_unit (p : Prog F Unit) : (p >>= fun _ => ret ()) = p := by
  induction p with
  | ret a => rfl
  | op o k ih =>
    rw [op_bind]
    congr 1
    funext r
    exact ih r

/-- Every run from `s` stays in `C`, does not fail, and ends with a result and a state in `Q`. -/
def Holds (M : Semantics F σ) (C : σ → Prop) : Prog F α → (α → σ → Prop) → σ → Prop
  | ret a, Q, s => C s ∧ Q a s
  | op o k, Q, s => C s ∧ M.safe o s ∧ ∀ r s', M.step o s r s' → (k r).Holds M C Q s'

theorem Holds.now {p : Prog F α} {Q : α → σ → Prop} (h : p.Holds M C Q s) : C s := by
  cases p with
  | ret a => exact h.1
  | op o k => exact h.1

theorem Holds.mono {p : Prog F α} {Q Q' : α → σ → Prop} (h : p.Holds M C Q s)
    (hQ : ∀ a t, C t → Q a t → Q' a t) : p.Holds M C Q' s := by
  induction p generalizing s with
  | ret a => exact ⟨h.1, hQ a s h.1 h.2⟩
  | op o k ih => exact ⟨h.1, h.2.1, fun r t hst => ih r (h.2.2 r t hst)⟩

theorem Holds.weaken {p : Prog F α} {D : σ → Prop} {Q : α → σ → Prop} (h : p.Holds M C Q s)
    (hD : ∀ t, C t → D t) : p.Holds M D Q s := by
  induction p generalizing s with
  | ret a => exact ⟨hD s h.1, h.2⟩
  | op o k ih => exact ⟨hD s h.1, h.2.1, fun r t hst => ih r (h.2.2 r t hst)⟩

theorem holds_bind (p : Prog F α) (f : α → Prog F β) (Q : β → σ → Prop) :
    (p >>= f).Holds M C Q s ↔ p.Holds M C (fun a => (f a).Holds M C Q) s := by
  induction p generalizing s with
  | ret a => exact ⟨fun h => ⟨h.now, h⟩, fun h => h.2⟩
  | op o k ih =>
    constructor
    · intro h
      exact ⟨h.1, h.2.1, fun r t hst => (ih r).mp (h.2.2 r t hst)⟩
    · intro h
      exact ⟨h.1, h.2.1, fun r t hst => (ih r).mpr (h.2.2 r t hst)⟩

inductive Step (M : Semantics F σ) : Prog F α × σ → Prog F α × σ → Prop
  | op {o : F.Op} {k : F.Result o → Prog F α} {s t : σ} {r : F.Result o} (h : M.step o s r t) :
      Step M (op o k, s) (k r, t)

theorem Holds.step {p q : Prog F α} {Q : α → σ → Prop} {t : σ} (h : p.Holds M C Q s)
    (hst : Step M (p, s) (q, t)) : q.Holds M C Q t := by
  cases hst with
  | op hst => exact h.2.2 _ _ hst

def run (I : Interp F σ) : Prog F α → σ → Except String (α × σ)
  | ret a, s => .ok (a, s)
  | op o k, s =>
    match I o s with
    | .error e => .error e
    | .ok (r, t) => (k r).run I t

end Prog

/-- A machine that can be run, as a relation. -/
def Interp.semantics {F : Interface} {σ : Type} (I : Interp F σ) : Semantics F σ where
  safe o s := ∃ r, I o s = .ok r
  step o s r t := I o s = .ok (r, t)

namespace Prog

variable {F : Interface} {σ : Type} {α : Type} {I : Interp F σ} {C : σ → Prop} {s : σ}

theorem Holds.call {o : F.Op} {k : F.Result o → Prog F α} {Q : α → σ → Prop} {r : F.Result o}
    {t : σ} (hC : C s) (hI : I o s = .ok (r, t)) (h : (k r).Holds I.semantics C Q t) :
    (Prog.op o k).Holds I.semantics C Q s := by
  refine ⟨hC, ⟨_, hI⟩, ?_⟩
  intro r' t' hst
  have : (r, t) = (r', t') := Except.ok.inj (hI.symm.trans hst)
  cases this
  exact h

/-- On a machine that can be run, the logic speaks about the one run there is. -/
theorem holds_iff_run (p : Prog F α) (Q : α → σ → Prop) :
    p.Holds I.semantics (fun _ => True) Q s ↔ ∃ a t, p.run I s = .ok (a, t) ∧ Q a t := by
  induction p generalizing s with
  | ret a => simp [Holds, run]
  | op o k ih =>
    simp only [Holds, run, Interp.semantics, true_and] at ih ⊢
    cases hI : I o s with
    | error e => simp
    | ok x =>
      obtain ⟨r, t⟩ := x
      simp only [Except.ok.injEq, exists_eq', true_and, Prod.mk.injEq, and_imp]
      rw [← ih r]
      constructor
      · intro h
        exact h r t rfl rfl
      · rintro h _ _ rfl rfl
        exact h

/-- The run from `s` ends, with a result and a state in `Q`. -/
def Returns (I : Interp F σ) (p : Prog F α) (Q : α → σ → Prop) (s : σ) : Prop :=
  p.Holds I.semantics (fun _ => True) Q s

theorem Returns.run {p : Prog F α} {Q : α → σ → Prop} (h : p.Returns I Q s) :
    ∃ a t, p.run I s = .ok (a, t) ∧ Q a t :=
  (holds_iff_run p Q).mp h

theorem Returns.ret {a : α} {Q : α → σ → Prop} (h : Q a s) : (Prog.ret a).Returns I Q s :=
  ⟨trivial, h⟩

theorem Returns.op {o : F.Op} {k : F.Result o → Prog F α} {Q : α → σ → Prop} {r : F.Result o}
    {t : σ} (hI : I o s = .ok (r, t)) (h : (k r).Returns I Q t) : (Prog.op o k).Returns I Q s :=
  .call trivial hI h

theorem Returns.mono {p : Prog F α} {Q Q' : α → σ → Prop} (h : p.Returns I Q s)
    (hQ : ∀ a t, Q a t → Q' a t) : p.Returns I Q' s :=
  Holds.mono h fun a t _ => hQ a t

/-- A machine that can do all that another one does returns what that one returns. -/
theorem Returns.simulate {τ : Type} {J : Interp F τ} {f : σ → τ} {p : Prog F α} {Q : α → σ → Prop}
    {R : α → τ → Prop} (h : p.Returns I Q s)
    (hJ : ∀ o s r t, I o s = .ok (r, t) → J o (f s) = .ok (r, f t)) (hR : ∀ a t, Q a t → R a (f t)) :
    p.Returns J R (f s) := by
  induction p generalizing s with
  | ret a => exact .ret (hR a s h.2)
  | op o k ih =>
    obtain ⟨-, ⟨⟨r, t⟩, hI⟩, hrest⟩ := h
    exact .op (hJ o s r t hI) (ih r (hrest r t hI))

/-- There is one run, so that what is known of it can be put together. -/
theorem Returns.and {p : Prog F α} {Q R : α → σ → Prop} (h : p.Returns I Q s)
    (h' : p.Returns I R s) : p.Returns I (fun a t => Q a t ∧ R a t) s := by
  obtain ⟨a, t, hrun, hQ⟩ := h.run
  obtain ⟨b, u, hrun', hR⟩ := h'.run
  rw [hrun] at hrun'
  cases hrun'
  exact (holds_iff_run p _).mpr ⟨a, t, hrun, hQ, hR⟩

/-- The rule for calls: what the call returns is what the rest goes on with. -/
theorem Returns.bind {β : Type} {p : Prog F α} {f : α → Prog F β} {Q : α → σ → Prop}
    {R : β → σ → Prop} (h : p.Returns I Q s) (hf : ∀ a t, Q a t → (f a).Returns I R t) :
    (p >>= f).Returns I R s :=
  (holds_bind p f R).mpr (h.mono hf)

end Prog
end Xv6.Lib
