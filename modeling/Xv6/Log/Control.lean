import Xv6.Log.Protocol

/-! The control invariant of the group commit: who may be where while `log.committing` is set. -/
namespace Xv6.Log

open Lib

variable {N : ℕ} {allowed : State N → Fin N → ℕ → Prop} {s t : State N}

@[simp] theorem State.goto_pc (s : State N) (p q : Fin N) (c : Pc) :
    (s.goto p c).pc q = if q = p then c else s.pc q := by
  simp [State.goto, Function.update_apply]

@[simp] theorem State.goto_lock (s : State N) (p : Fin N) (c : Pc) : (s.goto p c).lock = s.lock :=
  rfl

@[simp] theorem State.goto_log (s : State N) (p : Fin N) (c : Pc) : (s.goto p c).log = s.log := rfl

theorem State.goto_flag {α : Type*} (f : Pc → α) {s : State N} {p : Fin N} {c : Pc} (h : f c = f (s.pc p))
    (q : Fin N) : f ((s.goto p c).pc q) = f (s.pc q) := by
  by_cases hq : q = p
  · subst hq; simpa using h
  · simp [hq]

@[simp] theorem State.wake_lock (s : State N) (p k : Fin N) : (s.wake p k).lock = s.lock := by
  unfold State.wake; split <;> rfl

@[simp] theorem State.wake_log (s : State N) (p k : Fin N) : (s.wake p k).log = s.log := by
  unfold State.wake; split <;> rfl

theorem State.wake_pc (s : State N) (p k q : Fin N) : (s.wake p k).pc q = s.pc q ∨
    s.pc q = .sleeping ∧ (s.wake p k).pc q = .woken ∧ q = k ∧ k ≠ p := by
  unfold State.wake
  split_ifs with h
  · by_cases hq : q = k
    · subst hq; exact Or.inr ⟨h.2, by simp, rfl, h.1⟩
    · exact Or.inl (by simp [hq])
  · exact Or.inl rfl

theorem State.wake_flag {α : Type*} (f : Pc → α) (hf : f .woken = f .sleeping) (s : State N)
    (p k q : Fin N) : f ((s.wake p k).pc q) = f (s.pc q) := by
  rcases s.wake_pc p k q with h | ⟨h, h', -⟩
  · rw [h]
  · rw [h, h', hf]

theorem State.wake_self (s : State N) (p k : Fin N) : (s.wake p k).pc p = s.pc p := by
  rcases s.wake_pc p k p with h | ⟨-, -, h, h'⟩
  · exact h
  · exact absurd h.symm h'

def Pc.part (c : Pc) : Bool × Bool × Bool := (c.admitted, c.inCommit, c.cleared)

theorem Pc.inCommit_of_cleared {c : Pc} (h : c.cleared = true) : c.inCommit = true := by
  cases c <;> first | rfl | cases h

/-- How the processes' positions, `log.lock`, `outstanding`, `committing` and `lh` fit together. -/
structure Control (s : State N) : Prop where
  owner : ∀ p, s.lock = some p ↔ (s.pc p).holds = true
  count : s.log.outstanding = ∑ q, if (s.pc q).admitted then (1 : ℤ) else 0
  flag : s.log.committing = true ↔ ∃ p, (s.pc p).inCommit = true
  alone : ∀ p q, (s.pc p).inCommit = true → (s.pc q).inCommit = true → p = q
  quiet : s.log.committing = true → ∀ p, (s.pc p).admitted = false
  empty : ∀ p, (s.pc p).cleared = true → s.log.lh = []
  idle : s.log.committing = false → (∀ p, (s.pc p).admitted = false) → s.log.lh = []

namespace Control

theorem initial {size : ℤ} (h : Initial size s) : Control s where
  owner p := by simp [h.lock, h.pc, Pc.holds]
  count := by simp [h.log, h.pc, Pc.admitted]
  flag := by simp [h.log, h.pc, Pc.inCommit]
  alone p q := by simp [h.pc, Pc.inCommit]
  quiet := by simp [h.log]
  empty p := by simp [h.pc, Pc.cleared]
  idle := by simp [h.log]

theorem congr (h : Control s) (hlog : t.log = s.log)
    (howner : ∀ q, t.lock = some q ↔ (t.pc q).holds = true)
    (hk : ∀ q, (t.pc q).part = (s.pc q).part) : Control t := by
  have ha : ∀ q, (t.pc q).admitted = (s.pc q).admitted := fun q => congrArg Prod.fst (hk q)
  have hi : ∀ q, (t.pc q).inCommit = (s.pc q).inCommit := fun q =>
    congrArg (fun k => k.2.1) (hk q)
  have hc : ∀ q, (t.pc q).cleared = (s.pc q).cleared := fun q => congrArg (fun k => k.2.2) (hk q)
  exact {
    owner := howner
    count := by simpa only [hlog, ha] using h.count
    flag := by simpa only [hlog, hi] using h.flag
    alone := by simpa only [hi] using h.alone
    quiet := by simpa only [hlog, ha] using h.quiet
    empty := by simpa only [hlog, hc] using h.empty
    idle := by simpa only [hlog, ha] using h.idle }

theorem owner_keep (h : Control s) {p : Fin N} {c : Pc} (hc : c.holds = (s.pc p).holds) (q : Fin N) :
    s.lock = some q ↔ ((s.goto p c).pc q).holds = true := by
  rw [State.goto_flag Pc.holds hc]
  exact h.owner q

theorem owner_take (h : Control s) {p : Fin N} {c : Pc} (hl : s.lock = none) (hc : c.holds = true)
    (q : Fin N) : some p = some q ↔ ((s.goto p c).pc q).holds = true := by
  by_cases hq : q = p
  · simp [hq, hc]
  · have hn : (s.pc q).holds = false := by simpa [hl] using h.owner q
    simp [hq, hn, Ne.symm hq]

theorem owner_drop (h : Control s) {p : Fin N} {c : Pc} (hp : (s.pc p).holds = true)
    (hc : c.holds = false) (q : Fin N) :
    (none : Option (Fin N)) = some q ↔ ((s.goto p c).pc q).holds = true := by
  by_cases hq : q = p
  · simp [hq, hc]
  · have hl : s.lock = some p := (h.owner p).mpr hp
    have hn : (s.pc q).holds = false := by simpa [hl, Ne.symm hq] using h.owner q
    simp [hq, hn]

theorem count_goto (h : Control s) (p : Fin N) (c : Pc) :
    (∑ q, if ((s.goto p c).pc q).admitted then (1 : ℤ) else 0) =
      s.log.outstanding - (if (s.pc p).admitted then 1 else 0) + if c.admitted then 1 else 0 := by
  rw [h.count, sum_eq_of_eq_off (f := fun q => if ((s.goto p c).pc q).admitted then (1 : ℤ) else 0)
    (g := fun q => if (s.pc q).admitted then (1 : ℤ) else 0) p]
  · simp
  · intro q hq
    simp [hq]

theorem outstanding_pos (h : Control s) {p : Fin N} (hp : (s.pc p).admitted = true) :
    1 ≤ s.log.outstanding := by
  rw [h.count, ← Finset.add_sum_erase _ _ (Finset.mem_univ p), if_pos hp]
  have : 0 ≤ ∑ q ∈ Finset.univ.erase p, if (s.pc q).admitted then (1 : ℤ) else 0 :=
    Finset.sum_nonneg fun q _ => by split <;> omega
  omega

theorem not_committing (h : Control s) {p : Fin N} (hp : (s.pc p).admitted = true) :
    s.log.committing = false := by
  by_contra hc
  have := h.quiet (by simpa using hc) p
  simp_all

theorem last (h : Control s) {p : Fin N} (hp : (s.pc p).admitted = true)
    (h1 : s.log.outstanding - 1 = 0) {q : Fin N} (hq : q ≠ p) : (s.pc q).admitted = false := by
  by_contra ha
  have hc := h.count
  rw [← Finset.add_sum_erase _ _ (Finset.mem_univ p), if_pos hp,
    ← Finset.add_sum_erase _ _ (Finset.mem_erase.mpr ⟨hq, Finset.mem_univ q⟩),
    if_pos (by simpa using ha)] at hc
  have : 0 ≤ ∑ r ∈ (Finset.univ.erase p).erase q, if (s.pc r).admitted then (1 : ℤ) else 0 :=
    Finset.sum_nonneg fun q _ => by split <;> omega
  omega

/-- A step keeps the counters in agreement with where the processes are. -/
theorem step (h : Control s) (hst : Step allowed s t) : Control t := by
  cases hst with
  | beginOp p hp =>
    exact h.congr rfl (h.owner_keep (by rw [hp]; rfl)) (State.goto_flag _ (by rw [hp]; rfl))
  | acquire p c hp hl =>
    have hc : c.holds = true ∧ c.part = (s.pc p).part := by
      cases hpc : s.pc p <;> simp only [hpc, Pc.acquired, Option.some.injEq, reduceCtorEq] at hp <;>
        subst hp <;> exact ⟨rfl, rfl⟩
    exact h.congr rfl (h.owner_take hl hc.1) (State.goto_flag _ hc.2)
  | sleep p hp hw =>
    exact h.congr rfl (h.owner_keep (by rw [hp]; rfl)) (State.goto_flag _ (by rw [hp]; rfl))
  | sleepRelease p hp =>
    exact h.congr rfl (h.owner_drop (by rw [hp]; rfl) rfl) (State.goto_flag _ (by rw [hp]; rfl))
  | sleepSwitch p hp =>
    exact h.congr rfl (h.owner_keep (by rw [hp]; rfl)) (State.goto_flag _ (by rw [hp]; rfl))
  | enter p hp hw =>
    have hcom : s.log.committing = false := by simp_all [mustWait]
    have hi := State.goto_flag Pc.inCommit (s := s) (p := p) (c := .op) (by rw [hp]; rfl)
    have hc := State.goto_flag Pc.cleared (s := s) (p := p) (c := .op) (by rw [hp]; rfl)
    refine ⟨h.owner_drop (by rw [hp]; rfl) rfl, ?_, ?_, ?_, ?_, ?_, ?_⟩
    · have := h.count_goto p .op
      rw [hp] at this
      simpa [Pc.admitted] using this.symm
    · simpa only [hi] using h.flag
    · simpa only [hi] using h.alone
    · intro hf
      exact absurd hf (by simp [hcom])
    · simpa only [hc] using h.empty
    · intro _ ha
      have := ha p
      simp [Pc.admitted] at this
  | callWrite p b hp ha =>
    exact h.congr rfl (h.owner_keep (by rw [hp]; rfl)) (State.goto_flag _ (by rw [hp]; rfl))
  | write p b l pin hp hw =>
    obtain ⟨-, -, rfl, -⟩ := logWrite_ok hw
    have hadm : (s.pc p).admitted = true := by rw [hp]; rfl
    have hcom := h.not_committing hadm
    have ha := State.goto_flag Pc.admitted (s := s) (p := p) (c := .op) (by rw [hp]; rfl)
    have hi := State.goto_flag Pc.inCommit (s := s) (p := p) (c := .op) (by rw [hp]; rfl)
    have hc := State.goto_flag Pc.cleared (s := s) (p := p) (c := .op) (by rw [hp]; rfl)
    refine ⟨h.owner_drop (by rw [hp]; rfl) rfl, ?_, ?_, ?_, ?_, ?_, ?_⟩
    · simpa only [ha] using h.count
    · simpa only [hi] using h.flag
    · simpa only [hi] using h.alone
    · simpa only [ha] using h.quiet
    · intro q hq
      have hcl := Pc.inCommit_of_cleared ((hc q).symm.trans hq)
      exact absurd (h.flag.mpr ⟨q, hcl⟩) (by simp [hcom])
    · intro _ hq
      have := (ha p).symm.trans (hq p)
      simp [hadm] at this
  | writePanic p b msg hp hw => exact h.congr rfl h.owner fun _ => rfl
  | callEnd p hp =>
    exact h.congr rfl (h.owner_keep (by rw [hp]; rfl)) (State.goto_flag _ (by rw [hp]; rfl))
  | endLast p l hp he =>
    obtain ⟨hcom, h0, rfl⟩ := endOp_ok he
    replace h0 := h0.mp rfl
    have hadm : (s.pc p).admitted = true := by rw [hp]; rfl
    have hno : ∀ q, (s.pc q).inCommit = false := by simpa [hcom] using h.flag
    refine ⟨h.owner_drop (by rw [hp]; rfl) rfl, ?_, ?_, ?_, ?_, ?_, ?_⟩
    · have := h.count_goto p .commit
      rw [hp] at this
      simpa [Pc.admitted] using this.symm
    · simpa using ⟨p, by simp [Pc.inCommit]⟩
    · intro q r hq hr
      by_cases h1 : q = p <;> by_cases h2 : r = p <;> simp_all
    · intro _ q
      by_cases hq : q = p
      · simp [hq, Pc.admitted]
      · simpa [hq] using h.last hadm h0 hq
    · intro q hq
      by_cases h1 : q = p
      · simp [h1, Pc.cleared] at hq
      · have := Pc.inCommit_of_cleared (by simpa [h1] using hq)
        simp [hno] at this
    · simp
  | endMore p l hp he =>
    obtain ⟨hcom, h0, rfl⟩ := endOp_ok he
    have hadm : (s.pc p).admitted = true := by rw [hp]; rfl
    have hi := State.goto_flag Pc.inCommit (s := s) (p := p) (c := .wakeup 0) (by rw [hp]; rfl)
    have hc := State.goto_flag Pc.cleared (s := s) (p := p) (c := .wakeup 0) (by rw [hp]; rfl)
    have hcount := h.count_goto p (.wakeup 0)
    rw [hp] at hcount
    replace hcount : s.log.outstanding - 1 =
        ∑ q, if ((s.goto p (.wakeup 0)).pc q).admitted then (1 : ℤ) else 0 := by
      simpa [Pc.admitted] using hcount.symm
    refine ⟨h.owner_keep (by rw [hp]; rfl), hcount, ?_, ?_, ?_, ?_, ?_⟩
    · simpa only [hi, hcom] using h.flag
    · simpa only [hi] using h.alone
    · simp
    · simpa only [hc] using h.empty
    · intro _ hq
      have hz : s.log.outstanding - 1 = 0 := by
        rw [hcount]
        exact Finset.sum_eq_zero fun q _ => by simpa using hq q
      simp [hz] at h0
  | endPanic p msg hp he => exact h.congr rfl h.owner fun _ => rfl
  | clear p hp =>
    have ha := State.goto_flag Pc.admitted (s := s) (p := p) (c := .commitCleared) (by rw [hp]; rfl)
    have hi := State.goto_flag Pc.inCommit (s := s) (p := p) (c := .commitCleared) (by rw [hp]; rfl)
    refine ⟨h.owner_keep (by rw [hp]; rfl), ?_, ?_, ?_, ?_, ?_, ?_⟩
    · simpa only [ha] using h.count
    · simpa only [hi] using h.flag
    · simpa only [hi] using h.alone
    · simpa only [ha] using h.quiet
    · exact fun _ _ => rfl
    · exact fun _ _ => rfl
  | clearWritten p hp =>
    exact h.congr rfl (h.owner_keep (by rw [hp]; rfl)) (State.goto_flag _ (by rw [hp]; rfl))
  | finish p hp =>
    have hin : (s.pc p).inCommit = true := by rw [hp]; rfl
    have hcom := h.flag.mpr ⟨p, hin⟩
    have ha := State.goto_flag Pc.admitted (s := s) (p := p) (c := .wakeup 0) (by rw [hp]; rfl)
    have hno : ∀ q, ¬ ((s.goto p (.wakeup 0)).pc q).inCommit = true := by
      intro q
      by_cases hq : q = p
      · simp [hq, Pc.inCommit]
      · have := mt (h.alone q p · hin) hq
        simpa [hq] using this
    refine ⟨h.owner_keep (by rw [hp]; rfl), ?_, ?_, ?_, ?_, ?_, ?_⟩
    · simpa only [ha] using h.count
    · exact iff_of_false (by simp) fun hex => hex.elim hno
    · exact fun q r hq => absurd hq (hno q)
    · simp
    · exact fun q hq => absurd (Pc.inCommit_of_cleared hq) (hno q)
    · exact fun _ _ => h.empty p (by rw [hp]; rfl)
  | wakeOne p k hp hk =>
    have hw : ∀ q, ((s.wake p k).pc q).part = (s.pc q).part := s.wake_flag _ rfl p k
    have hs : Control (s.wake p k) := h.congr (by simp)
      (fun q => by rw [State.wake_lock, s.wake_flag Pc.holds rfl]; exact h.owner q) hw
    have hp' : (s.wake p k).pc p = .wakeup k := (s.wake_self p k).trans hp
    exact hs.congr rfl (hs.owner_keep (by rw [hp']; rfl)) (State.goto_flag _ (by rw [hp']; rfl))
  | wakeDone p hp =>
    exact h.congr rfl (h.owner_drop (by rw [hp]; rfl) rfl) (State.goto_flag _ (by rw [hp]; rfl))
  | kill q hq =>
    exact h.congr rfl (h.owner_keep (by rw [hq]; rfl)) (State.goto_flag _ (by rw [hq]; rfl))

theorem reachable {size : ℤ} (h : (protocol N size allowed).Reachable s) : Control s :=
  h.invariant (fun _ => initial) fun s t _ hs (hst : _ ∧ Step allowed s t) => hs.step hst.2

end Control

end Xv6.Log
