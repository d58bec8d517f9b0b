import Xv6.Log.Effect
import Xv6.Log.Sleepers

/-! Safety of the group commit: an operation's blocks all go into one commit. -/
namespace Xv6.Log

open Lib

variable {N : ℕ} {allowed : State N → Fin N → ℕ → Prop} {s t : State N}

/-- Operation numbers are never shared, and every `log_write` is in the list of the commit that
its epoch names, or in `lh` while that commit is still to come. -/
structure History (s : State N) : Prop where
  op_lt : ∀ e ∈ s.history, e.op < s.nextOp
  id_lt : ∀ p, (s.pc p).admitted = true → s.opId p < s.nextOp
  id_inj : ∀ p q, (s.pc p).admitted = true → (s.pc q).admitted = true → s.opId p = s.opId q → p = q
  current : ∀ e ∈ s.history, ∀ p, (s.pc p).admitted = true → e.op = s.opId p →
    e.epoch = s.commits.length
  epoch_le : ∀ e ∈ s.history, e.epoch ≤ s.commits.length
  same : ∀ e ∈ s.history, ∀ f ∈ s.history, e.op = f.op → e.epoch = f.epoch
  logged : ∀ e ∈ s.history, e.block ∈ s.commits.getD e.epoch s.log.lh

namespace History

theorem initial {size : ℤ} (h : Initial size s) : History s := by
  constructor <;> simp [h.history, h.pc, Pc.admitted]

theorem congr (h : History s) (hst : Same s t)
    (ha : ∀ q, (t.pc q).admitted = true → (s.pc q).admitted = true) : History t := by
  obtain ⟨h1, h2, h3, h4, h5, h6, h7⟩ := h
  obtain ⟨hlh, hid, hn, hcs, hh⟩ := hst
  refine ⟨?_, ?_, ?_, ?_, ?_, ?_, ?_⟩ <;> simp only [hlh, hid, hn, hcs, hh] <;> grind

theorem enter (h : History s) {p : Fin N} (hpc : t.pc = (s.goto p .op).pc)
    (hlh : t.log.lh = s.log.lh) (hid : t.opId = Function.update s.opId p s.nextOp)
    (hn : t.nextOp = s.nextOp + 1) (hcs : t.commits = s.commits) (hh : t.history = s.history) :
    History t := by
  have hother : ∀ q, q ≠ p → (t.pc q).admitted = true → (s.pc q).admitted = true := by
    intro q hq hadm
    simpa [hpc, hq] using hadm
  have hval : ∀ q, t.opId q = if q = p then s.nextOp else s.opId q := by
    simp [hid, Function.update_apply]
  obtain ⟨h1, h2, h3, h4, h5, h6, h7⟩ := h
  constructor <;> grind

theorem write (h : History s) {p : Fin N} {b : ℕ} (hp : s.pc p = .writeHeld b)
    (hpc : t.pc = (s.goto p .op).pc)
    (hlh : t.log.lh = if b ∈ s.log.lh then s.log.lh else s.log.lh ++ [b]) (hid : t.opId = s.opId)
    (hn : t.nextOp = s.nextOp) (hcs : t.commits = s.commits)
    (hh : t.history = s.history ++ [⟨s.opId p, s.commits.length, b⟩]) : History t := by
  have hadm : ∀ q, (t.pc q).admitted = (s.pc q).admitted := by
    intro q
    rw [hpc]
    exact State.goto_flag _ (by rw [hp]; rfl) q
  have hpa : (s.pc p).admitted = true := by rw [hp]; rfl
  have hb : b ∈ t.log.lh := by
    rw [hlh]
    split <;> simp [*]
  have hsub : ∀ x ∈ s.log.lh, x ∈ t.log.lh := by
    intro x hx
    rw [hlh]
    split <;> simp [hx]
  have hget : ∀ k, ∀ x ∈ s.commits.getD k s.log.lh, x ∈ s.commits.getD k t.log.lh := by
    intro k x hx
    rw [List.getD_eq_getElem?_getD] at hx ⊢
    cases hk : s.commits[k]? with
    | none => rw [hk] at hx; exact hsub x hx
    | some l => rw [hk] at hx; exact hx
  obtain ⟨h1, h2, h3, h4, h5, h6, h7⟩ := h
  refine ⟨?_, ?_, ?_, ?_, ?_, ?_, ?_⟩ <;>
    simp only [hadm, hid, hn, hcs, hh, List.mem_append, List.mem_singleton]
  · grind
  · grind
  · grind
  · grind
  · grind
  · grind
  · rintro e (he | rfl)
    · exact hget _ _ (h7 e he)
    · simpa using hb

theorem clear (h : History s) (hno : ∀ q, (t.pc q).admitted = false) (hn : t.nextOp = s.nextOp)
    (hcs : t.commits = s.commits ++ [s.log.lh]) (hh : t.history = s.history) : History t := by
  obtain ⟨h1, h2, h3, h4, h5, h6, h7⟩ := h
  refine ⟨?_, ?_, ?_, ?_, ?_, ?_, ?_⟩ <;> simp only [hno, hn, hcs, hh, List.length_append]
  · exact h1
  · simp
  · simp
  · simp
  · intro e he
    exact (h5 e he).trans (Nat.le_add_right _ _)
  · exact h6
  · intro e he
    have := h7 e he
    rcases (h5 e he).lt_or_eq with hlt | heq
    · rw [List.getD_eq_getElem?_getD, List.getElem?_append_left hlt,
        List.getElem?_eq_getElem hlt]
      rwa [List.getD_eq_getElem?_getD, List.getElem?_eq_getElem hlt] at this
    · rw [heq] at this ⊢
      simpa using this

theorem step (h : History s) (hs : Control s) (hst : Step allowed s t) : History t := by
  cases hst.effect with
  | quiet hsame ha hp => exact h.congr hsame fun q hq => (ha q).symm.trans hq
  | entered p hpc hp hw hlh hid hn hcs hh => exact h.enter hpc hlh hid hn hcs hh
  | called p b hsame hpc hp ha =>
    exact h.congr hsame (admitted_of_goto hpc fun _ => by rw [hp]; rfl)
  | wrote p b hpc hp hlh hid hn hcs hh => exact h.write hp hpc hlh hid hn hcs hh
  | ended p c hsame hpc hp hc hc' => exact h.congr hsame (admitted_of_goto hpc (by simp [hc]))
  | cleared p hpc hp hlh hid hn hcs hh =>
    have hno := hs.quiet (hs.flag.mpr ⟨p, by rw [hp]; rfl⟩)
    refine h.clear (fun q => ?_) hn hcs hh
    rw [hpc, State.goto_flag Pc.admitted (by rw [hp]; rfl)]
    exact hno q

theorem reachable {size : ℤ} (h : (protocol N size allowed).Reachable s) : History s :=
  h.invariant (fun _ => initial)
    fun s t hr hs (hst : _ ∧ Step allowed s t) => hs.step (.reachable hr) hst.2

end History

theorem committing_frozen (h : Control s) (hc : s.log.committing = true) (hst : Step allowed s t) :
    t.nextOp = s.nextOp ∧ t.history = s.history := by
  cases hst with
  | enter p hp hw => simp [mustWait, hc] at hw
  | write p b l pin hp hw =>
    have := h.quiet hc p
    rw [hp] at this
    cases this
  | wakeOne p k hp hk => unfold State.wake; split <;> exact ⟨rfl, rfl⟩
  | _ => exact ⟨rfl, rfl⟩

theorem no_committing_panic {size : ℤ} (h : (protocol N size allowed).Reachable s) :
    s.panicked ≠ some "log.committing" := by
  refine h.invariant (I := fun s => s.panicked ≠ some "log.committing")
    (fun s (hs : Initial size s) => by simp [hs.panicked]) ?_
  rintro s t hr hs ⟨hn, hst⟩
  have hctl := Control.reachable hr
  cases hst with
  | writePanic p b msg hp hw =>
    rcases logWrite_error hw with ⟨rfl, -⟩ | ⟨rfl, -⟩ <;> simp
  | endPanic p msg hp he =>
    have := hctl.not_committing (p := p) (by rw [hp]; rfl)
    simp [endOp_error he] at this
  | wakeOne p k hp hk => unfold State.wake; split <;> exact hs
  | _ => exact hs

/-- The group-commit protocol, for any number of processes and any choice of logged blocks. The
last conjunct is about the states in which `log.lock` is free. -/
theorem group_commit {size : ℤ} (h : (protocol N size allowed).Reachable s) :
    (∀ p, s.pc p = .commit ∨ s.pc p = .commitCleared → s.log.outstanding = 0) ∧
    (s.log.committing = true → ∀ t, (protocol N size allowed).step s t →
      t.nextOp = s.nextOp ∧ t.history = s.history) ∧
    s.panicked ≠ some "log.committing" ∧
    (s.log.outstanding = 0 → s.log.committing = false → s.log.lh = []) ∧
    (∀ e ∈ s.history, ∀ f ∈ s.history, e.op = f.op → e.epoch = f.epoch) ∧
    (∀ e ∈ s.history, e.block ∈ s.commits.getD e.epoch s.log.lh) ∧
    (s.lock = none → ∀ p, s.pc p = .sleeping →
      (s.log.committing = true ∨
        (s.log.lh.length : ℤ) + (s.log.outstanding + 1) * maxOpBlocks > logSize) ∧
      (1 ≤ s.log.outstanding ∨ s.log.committing = true)) := by
  have hctl := Control.reachable h
  have hzero : (∀ p, (s.pc p).admitted = false) → s.log.outstanding = 0 := fun hno => by
    rw [hctl.count]
    exact Finset.sum_eq_zero fun q _ => by simp [hno q]
  have hidle : s.log.outstanding = 0 → s.log.committing = false → s.log.lh = [] := by
    intro h0 hc
    refine hctl.idle hc fun p => ?_
    by_contra hp
    have := hctl.outstanding_pos (by simpa using hp)
    omega
  refine ⟨?_, ?_, no_committing_panic h, hidle, (History.reachable h).same,
    (History.reachable h).logged, ?_⟩
  · rintro p hp
    have hin : (s.pc p).inCommit = true := by rcases hp with hp | hp <;> rw [hp] <;> rfl
    exact hzero (hctl.quiet (hctl.flag.mpr ⟨p, hin⟩))
  · exact fun hc t hst => committing_frozen hctl hc hst.2
  · intro hl p hp
    have hw : s.log.mustWait = true := by
      rcases Sleepers.reachable h p (by rw [hp]; rfl) with hw | ⟨q, k, hq, -⟩
      · exact hw
      · have := (hctl.owner q).mpr (by rw [hq]; rfl)
        simp [hl] at this
    refine ⟨mustWait_iff.mp hw, ?_⟩
    by_cases hc : s.log.committing = true
    · exact Or.inr hc
    · left
      by_contra hlt
      have hnn : 0 ≤ s.log.outstanding := by
        rw [hctl.count]
        exact Finset.sum_nonneg fun q _ => by split <;> omega
      have h0 : s.log.outstanding = 0 := by omega
      have := hidle h0 (by simpa using hc)
      simp [mustWait, h0, this, hc] at hw

/-- Process 1 sleeps in `begin_op` while process 0 commits an empty transaction. -/
theorem group_commit_sleeper : ∃ s : State 2, s.lock = none ∧ s.pc 1 = .sleeping ∧
    s.pc 0 = .commit ∧ s.log.outstanding = 0 ∧
      (1 ≤ s.log.outstanding ∨ s.log.committing = true) := by
  have h0 : (protocol 2 30 fun _ _ _ => True).Reachable (boot 2 30) := .init (boot_initial 2 30)
  have h1 := h0.step ⟨rfl, .beginOp 0 rfl⟩
  have h2 := h1.step ⟨rfl, .acquire 0 _ rfl rfl⟩
  have h3 := h2.step ⟨rfl, .enter 0 rfl rfl⟩
  have h4 := h3.step ⟨rfl, .callEnd 0 rfl⟩
  have h5 := h4.step ⟨rfl, .acquire 0 _ rfl rfl⟩
  have h6 := h5.step ⟨rfl, .endLast 0 _ rfl rfl⟩
  have h7 := h6.step ⟨rfl, .beginOp 1 rfl⟩
  have h8 := h7.step ⟨rfl, .acquire 1 _ rfl rfl⟩
  have h9 := h8.step ⟨rfl, .sleep 1 rfl rfl⟩
  have h10 := h9.step ⟨rfl, .sleepRelease 1 rfl⟩
  have h11 := h10.step ⟨rfl, .sleepSwitch 1 rfl⟩
  obtain ⟨hrun, -, -, -, -, -, hsleep⟩ := group_commit h11
  exact ⟨_, rfl, rfl, rfl, hrun 0 (Or.inl rfl), (hsleep rfl 1 rfl).2⟩

end Xv6.Log
