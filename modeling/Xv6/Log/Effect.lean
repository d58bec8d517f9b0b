import Xv6.Log.Control

/-! What one step of the group commit can do to the list of logged blocks and to the history. -/
namespace Xv6.Log

variable {N : ℕ} {allowed : State N → Fin N → ℕ → Prop} {s t : State N}

def Pc.pending : Pc → Option ℕ
  | writeAcquire b | writeHeld b => some b
  | _ => none

/-- Nothing is admitted, logged or committed. -/
structure Same (s t : State N) : Prop where
  lh : t.log.lh = s.log.lh
  opId : t.opId = s.opId
  nextOp : t.nextOp = s.nextOp
  commits : t.commits = s.commits
  history : t.history = s.history

inductive Effect (allowed : State N → Fin N → ℕ → Prop) (s t : State N) : Prop
  | quiet (h : Same s t) (ha : ∀ q, (t.pc q).admitted = (s.pc q).admitted)
      (hp : ∀ q, (t.pc q).pending = (s.pc q).pending)
  | entered (p) (hpc : t.pc = (s.goto p .op).pc) (hp : (s.pc p).admitted = false)
      (hw : s.log.mustWait = false) (hlh : t.log.lh = s.log.lh)
      (hid : t.opId = Function.update s.opId p s.nextOp) (hn : t.nextOp = s.nextOp + 1)
      (hcs : t.commits = s.commits) (hh : t.history = s.history)
  | called (p b) (h : Same s t) (hpc : t.pc = (s.goto p (.writeAcquire b)).pc) (hp : s.pc p = .op)
      (ha : allowed s p b)
  | wrote (p b) (hpc : t.pc = (s.goto p .op).pc) (hp : s.pc p = .writeHeld b)
      (hlh : t.log.lh = if b ∈ s.log.lh then s.log.lh else s.log.lh ++ [b])
      (hid : t.opId = s.opId) (hn : t.nextOp = s.nextOp) (hcs : t.commits = s.commits)
      (hh : t.history = s.history ++ [⟨s.opId p, s.commits.length, b⟩])
  | ended (p c) (h : Same s t) (hpc : t.pc = (s.goto p c).pc) (hp : s.pc p = .endHeld)
      (hc : c.admitted = false) (hc' : c.pending = none)
  | cleared (p) (hpc : t.pc = (s.goto p .commitCleared).pc) (hp : s.pc p = .commit)
      (hlh : t.log.lh = []) (hid : t.opId = s.opId) (hn : t.nextOp = s.nextOp)
      (hcs : t.commits = s.commits ++ [s.log.lh]) (hh : t.history = s.history)

theorem Effect.move {p : Fin N} {c c' : Pc} (hpc : t.pc = (s.goto p c').pc) (hp : s.pc p = c)
    (h : Same s t) (ha : c'.admitted = c.admitted) (hb : c'.pending = c.pending) :
    Effect allowed s t := by
  subst hp
  refine .quiet h (fun q => ?_) fun q => ?_
  · rw [hpc, State.goto_flag Pc.admitted ha]
  · rw [hpc, State.goto_flag Pc.pending hb]

theorem Step.effect (hst : Step allowed s t) : Effect allowed s t := by
  cases hst with
  | beginOp p hp => exact .move rfl hp ⟨rfl, rfl, rfl, rfl, rfl⟩ rfl rfl
  | acquire p c hp hl =>
    have hc : c.admitted = (s.pc p).admitted ∧ c.pending = (s.pc p).pending := by
      cases hpc : s.pc p <;> simp only [hpc, Pc.acquired, Option.some.injEq, reduceCtorEq] at hp <;>
        subst hp <;> exact ⟨rfl, rfl⟩
    exact .move rfl rfl ⟨rfl, rfl, rfl, rfl, rfl⟩ hc.1 hc.2
  | sleep p hp hw => exact .move rfl hp ⟨rfl, rfl, rfl, rfl, rfl⟩ rfl rfl
  | sleepRelease p hp => exact .move rfl hp ⟨rfl, rfl, rfl, rfl, rfl⟩ rfl rfl
  | sleepSwitch p hp => exact .move rfl hp ⟨rfl, rfl, rfl, rfl, rfl⟩ rfl rfl
  | enter p hp hw => exact .entered p rfl (by rw [hp]; rfl) hw rfl rfl rfl rfl rfl
  | callWrite p b hp ha => exact .called p b ⟨rfl, rfl, rfl, rfl, rfl⟩ rfl hp ha
  | write p b l pin hp hw =>
    obtain ⟨-, -, rfl, -⟩ := logWrite_ok hw
    exact .wrote p b rfl hp rfl rfl rfl rfl rfl
  | writePanic p b msg hp hw => exact .quiet ⟨rfl, rfl, rfl, rfl, rfl⟩ (fun _ => rfl) fun _ => rfl
  | callEnd p hp => exact .move rfl hp ⟨rfl, rfl, rfl, rfl, rfl⟩ rfl rfl
  | endLast p l hp he =>
    obtain ⟨-, -, rfl⟩ := endOp_ok he
    exact .ended p .commit ⟨rfl, rfl, rfl, rfl, rfl⟩ rfl hp rfl rfl
  | endMore p l hp he =>
    obtain ⟨-, -, rfl⟩ := endOp_ok he
    exact .ended p (.wakeup 0) ⟨rfl, rfl, rfl, rfl, rfl⟩ rfl hp rfl rfl
  | endPanic p msg hp he => exact .quiet ⟨rfl, rfl, rfl, rfl, rfl⟩ (fun _ => rfl) fun _ => rfl
  | clear p hp => exact .cleared p rfl hp rfl rfl rfl rfl rfl
  | clearWritten p hp => exact .move rfl hp ⟨rfl, rfl, rfl, rfl, rfl⟩ rfl rfl
  | finish p hp => exact .move rfl hp ⟨rfl, rfl, rfl, rfl, rfl⟩ rfl rfl
  | wakeOne p k hp hk =>
    have hw : Same s (s.wake p k) := by
      unfold State.wake
      split <;> exact ⟨rfl, rfl, rfl, rfl, rfl⟩
    have hp' : (s.wake p k).pc p = .wakeup k := (s.wake_self p k).trans hp
    refine .quiet ⟨hw.lh, hw.opId, hw.nextOp, hw.commits, hw.history⟩ (fun q => ?_) fun q => ?_
    · rw [State.goto_flag Pc.admitted (by rw [hp']; rfl), s.wake_flag Pc.admitted rfl]
    · rw [State.goto_flag Pc.pending (by rw [hp']; rfl), s.wake_flag Pc.pending rfl]
  | wakeDone p hp => exact .move rfl hp ⟨rfl, rfl, rfl, rfl, rfl⟩ rfl rfl
  | kill q hq => exact .move rfl hq ⟨rfl, rfl, rfl, rfl, rfl⟩ rfl rfl

theorem admitted_of_goto {p : Fin N} {c : Pc} (hpc : t.pc = (s.goto p c).pc)
    (hc : c.admitted = true → (s.pc p).admitted = true) (q : Fin N)
    (hq : (t.pc q).admitted = true) : (s.pc q).admitted = true := by
  rw [hpc] at hq
  by_cases hqp : q = p
  · subst hqp
    exact hc (by simpa using hq)
  · simpa [hqp] using hq

end Xv6.Log
