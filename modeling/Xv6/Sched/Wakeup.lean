import Xv6.Sched.Sleep

/-! No wakeup is lost: every step keeps the account of the calls of `sleep`, so that a call of
`wakeup` that has walked over the whole table owes nothing. -/
namespace Xv6.Sched

open Proc (ProcState)
open Pc Kernel

variable {N : ℕ} {σ K : Type} {client : Client σ K} {init : σ → Prop} {s t : Kernel N σ K}
  {c : Fin N} {p q : Slot}

/-- No step loses a wakeup, one case for each instruction. -/
theorem Sleepers.step (hc : Control client.holds s) (hf : Forks s) (h : Sleepers s) (hst : Step client s t) :
    Sleepers t := by
  cases hst with
  | acquire c p k hpc hl =>
    have hok := hc.ok c
    rw [hpc, Ok] at hok
    exact h.quiet rfl rfl hpc hok.2.2.2.2.ne_away rfl (Or.inl rfl) (by simp) (by simp) (by simp)
  | release c p k hpc hl =>
    have hok := hc.ok c
    rw [hpc, Ok] at hok
    exact h.quiet rfl rfl hpc hok.2.2.ne_away rfl (Or.inl rfl) (by simp) (by simp) (by simp)
  | acquireLk c l k hpc hl => exact h.acquireLk hc hpc hl
  | releaseLk c l k hpc hl =>
    have hok := hc.ok c
    rw [hpc, Ok] at hok
    refine h.quiet rfl rfl hpc hok.2.2.2.ne_away rfl (Or.inl rfl) (by simp) ?_ (by simp)
    intro m d hm
    by_cases hml : m = l
    · simp [hml] at hm
    · simpa [hml] using hm
  | pick c i hpc hr =>
    have hok := hc.ok c
    rw [hpc, Ok] at hok
    exact h.scheduler hok (by simp) (by simp [hr])
  | switchTo c i hpc => exact h.switchTo hc hpc
  | back c i hpc =>
    have hok := hc.ok c
    rw [hpc, Ok] at hok
    have := h.scheduler (i := i) (r := s.proc i)
      (x := { s.cpu c with proc := none, pc := .release i (.scan (i + 1)) }) hok (by simp)
      (fun hs => ⟨hs, rfl⟩)
    simpa [setProc] using this
  | interrupt c i chan hpc =>
    have hok := hc.ok c
    rw [hpc, Ok] at hok
    have := h.scheduler (i := initproc) (r := s.proc initproc)
      (x := { s.cpu c with pc := .wakeup (.other chan) 0 (.scan i) }) hok (by simp)
      (fun hs => ⟨hs, rfl⟩)
    simpa [setProc, goto, hok] using this
  | sched c p k hpc hl hs =>
    exact h.quiet rfl rfl hpc (by simp) rfl (Or.inl rfl) (by simp) (by simp) (by simp)
  | swtch c p k hpc => exact h.swtch hc hpc
  | preempt c p hp hl hl' =>
    exact h.quiet rfl rfl (code_of_agent hp) (by simp) (hc.unlocked hp hl hl').2.2.symm (Or.inl rfl)
      (by simp) (by simp) (by simp)
  | yielding c p k hpc =>
    have hok := hc.ok c
    rw [hpc, Ok] at hok
    have hst := hc.state c p (proc_of_agent hok.1)
    rw [hpc] at hst
    refine h.quiet rfl rfl hpc (by simp) rfl (Or.inl rfl) ?_ (by simp) (by simp)
    intro q hq
    have hqp : q ≠ p := by
      rintro rfl
      rw [show _ = _ from hst] at hq
      cases hq
    simp [hqp, hq]
  | sleeping c chan p k hpc => exact h.sleeping hc hpc
  | tidy c p k hpc => exact h.tidy hc hpc
  | wakeupSelf c chan j k hpc hj =>
    have hok := hc.ok c
    rw [hpc, Ok] at hok
    refine h.pass (j := j) hpc (by simp) rfl rfl rfl ?_
    intro q lk hq ha _
    obtain rfl : j = q := Option.some.inj (hj.symm.trans (proc_of_agent hq))
    have hrun := hc.running_of_unlocked hq (by simp [hpc, holds, hok.ok.2.1])
    exact h.settled hq (by rw [hpc]; rfl) (by rw [hrun]; decide) (by rw [ha]; rfl)
  | wakeupEnd c chan j k hpc hj =>
    have hok := hc.ok c
    rw [hpc, Ok] at hok
    exact h.quiet rfl rfl hpc hok.ok.1.ne_away hok.ok.2.2.2.2 (Or.inr hok.waking) (by simp) (by simp)
      (by simp)
  | wakeOne c chan j k hpc hs hchan =>
    refine h.rouse (j := j) (k := .release j (.wakeup chan (j + 1) k)) rfl rfl hpc (by simp) rfl
      (by simp [Kernel.rouse]) (fun p hp => by simp [hp]) (by simp [Kernel.rouse]) ?_
      (Or.inr ⟨chan, rfl, rfl⟩)
    intro p n
    by_cases hp : p = j
    · subst hp
      by_cases hn : n = s.hist.calls p
      · simp [Kernel.rouse, hn]
      · simp [Kernel.rouse, hn]
    · simp [Kernel.rouse, hp]
  | wakeNone c chan j k hpc hs =>
    refine h.pass (j := j) hpc (by simp) rfl rfl rfl ?_
    intro q lk _ ha hlq
    by_contra hr
    have hr' : s.hist.roused j (s.hist.calls j) = false := by simpa using hr
    refine hs (hc.slept_of_locked (c := c) (by simp [hpc, holds]) (by rw [hpc]; rfl)
      (h.blocked j chan lk ha hr') ?_)
    intro d hd hl
    rw [h.entering d j chan lk q ha hr' hd hl] at hlq
    cases hlq
  | killSleeping c pid j x hpc hp hs =>
    refine h.rouse (j := j) (k := .release j (.client (x 0))) rfl rfl hpc (by simp) rfl
      (by simp [Kernel.rouse]) (fun p hp => by simp [hp]) (by simp [Kernel.rouse]) ?_ (Or.inl rfl)
    intro p n
    by_cases hp : p = j
    · subst hp
      by_cases hn : n = s.hist.calls p
      · simp [Kernel.rouse, hn]
      · simp [Kernel.rouse, hn]
    · simp [Kernel.rouse, hp]
  | killOne c pid j x hpc hp hs =>
    refine h.quiet rfl rfl hpc (by simp) rfl (Or.inl rfl) ?_ (by simp) (by simp)
    intro q hq
    by_cases hqj : q = j
    · simpa [hqj] using hq
    · simpa [hqj] using hq
  | setKilled c p x hpc =>
    refine h.quiet (k := .release p (.client x)) rfl rfl hpc (by simp) rfl (Or.inr rfl) ?_ (by simp)
      (by simp)
    intro q hq
    by_cases hqj : q = p
    · simpa [hqj] using hq
    · simpa [hqj] using hq
  | allocOne c p i x hpc hs =>
    have hok := hc.ok c
    rw [hpc, Ok] at hok
    have hoff := hc.off_cpu (c := c) (q := i) (by simp [hpc, expects]) (by simp [hpc, holds])
      (by rw [hs]; decide)
    have hcode := (Control.code_birth client.start hoff c).trans hpc
    exact (h.birth hoff hs).quiet rfl rfl hcode (by simp) rfl (Or.inl rfl) (by simp) (by simp) (by simp)
  | forkFail c p np x hpc =>
    have hok := hc.ok c
    rw [hpc, Ok] at hok
    have hs := hf.of_code hpc rfl (by simp [hok.1])
    refine h.quiet rfl rfl hpc (by simp) rfl (Or.inl rfl) ?_ (by simp) (by simp)
    intro q hq
    have hqp : q ≠ np := by
      rintro rfl
      rw [hs] at hq
      cases hq
    simp [hqp, hq]
  | setParent c p np pid x hpc =>
    refine h.quiet rfl rfl hpc (by simp) rfl (Or.inl rfl) ?_ (by simp) (by simp)
    intro q hq
    by_cases hqj : q = np
    · simpa [hqj] using hq
    · simpa [hqj] using hq
  | setRunnable c np pid x hpc =>
    have hok := hc.ok c
    rw [hpc, Ok] at hok
    have hs := hf.of_code hpc rfl hok.1
    refine h.quiet rfl rfl hpc (by simp) rfl (Or.inl rfl) ?_ (by simp) (by simp)
    intro q hq
    have hqp : q ≠ np := by
      rintro rfl
      rw [hs] at hq
      cases hq
    simp [hqp, hq]
  | reparent c p status i hpc hp =>
    have hok := hc.ok c
    rw [hpc, Ok] at hok
    refine h.enterWakeup (q := p)
      (k := .wakeup (.proc initproc) 0 (.reparent p status (i + 1))) hok rfl rfl hpc (by simp) rfl rfl ?_
      (by simp [Kernel.enterWakeup]) (hist_enterWakeup_congr (by simp) _ _)
    intro q hq
    by_cases hqj : q = i
    · simpa [hqj] using hq
    · simpa [hqj] using hq
  | exitWakeup c p status i q hpc hi hq =>
    have hok := hc.ok c
    rw [hpc, Ok] at hok
    exact h.enterWakeup (q := p)
      (k := .wakeup (.proc q) 0 (.acquire p (.zombie p status))) hok rfl rfl hpc (by simp) rfl rfl
      (by simp) (by simp [Kernel.enterWakeup]) (hist_enterWakeup_congr (by simp) _ _)
  | zombie c p status hpc =>
    have hok := hc.ok c
    rw [hpc, Ok] at hok
    have hst := hc.state c p (proc_of_agent hok)
    rw [hpc] at hst
    refine h.quiet (k := .releaseLk .wait (.sched p .dead)) rfl rfl hpc (by simp) rfl (Or.inl rfl) ?_
      (by simp) (by simp)
    intro q hq
    have hqp : q ≠ p := by
      rintro rfl
      rw [show _ = _ from hst] at hq
      cases hq
    simp [hqp, hq]
  | waitFree c p i x hpc hs =>
    refine h.quiet (k := .release i (.releaseLk .wait (.client (x (s.proc i).pid.toInt)))) rfl rfl
      hpc (by simp) rfl (Or.inl rfl) ?_ (by simp) (by simp)
    intro q hq
    have hqp : q ≠ i := by
      rintro rfl
      rw [hs] at hq
      cases hq
    simp [hqp, hq]
  | waitSleep c p x hpc hk =>
    have hok := hc.ok c
    rw [hpc, Ok] at hok
    have hst := hc.state c p (proc_of_agent hok.1)
    rw [hpc] at hst
    exact h.enterSleep hok.1 hpc (by simp) rfl hst rfl rfl
  | callSleep c p x chan l k hpc hp hcall =>
    have hst := hc.running_of_unlocked hp (by simp [hpc, holds])
    exact h.enterSleep hp hpc (by rintro ⟨⟩) rfl hst rfl rfl
  | callWakeup c p x chan k hpc hp hcall =>
    exact h.enterWakeup (q := p) (k := .wakeup (.other chan) 0 (.client k)) hp
      rfl rfl hpc (by simp) rfl rfl (by simp) (by simp [Kernel.enterWakeup])
      (hist_enterWakeup_congr (by simp) _ _)
  | device d hd =>
    exact h.frame (fun _ _ _ _ hb => hb) (fun _ _ _ hd hl => ⟨hd, hl⟩) (fun _ _ _ hq => hq)
      ⟨rfl, rfl, rfl, rfl, rfl⟩
  | _ =>
    exact h.quiet rfl rfl ‹_› (by simp) (by rfl) (by simp [Pc.waking]) (by simp) (by simp) (by simp)

theorem Initial.sleepers (h : Initial client init s) : Sleepers s := by
  constructor
  · intro p chan lk hp
    rw [h.hist] at hp
    cases hp
  · intro c p chan lk q hp
    rw [h.hist] at hp
    cases hp
  · intro q chan j _ p n hn
    rw [h.hist] at hn
    cases hn
  · intro p n hn hle
    rw [h.hist] at hle
    exact absurd (Nat.le_zero.mp hle) (by omega)

/-- In every run the calls of `sleep` not yet woken are those that `wakeup` will find. -/
theorem reachable_sleepers (h : (machine N client init).Reachable s) : Sleepers s := by
  apply h.invariant (I := Sleepers)
  · intro s hs
    exact Initial.sleepers hs
  · intro s t hr hs hst
    obtain ⟨hc, hf⟩ := reachable_control hr
    exact hs.step hc hf hst

/-- When a call of `wakeup` has passed all entries, every process whose call of `sleep` on the
channel was in progress when it began, with a lock that the caller has acquired since, has been made
runnable in that call. -/
theorem roused_of_wakeup (h : (machine N client init).Reachable s) {chan : Chan} {j n : ℕ} {k : Pc K}
    (hpc : s.code c = .wakeup chan j k) (hj : nproc ≤ j) (hq : s.agent c = some q)
    (ho : s.hist.owes q p = some n) : s.hist.roused p n = true := by
  have hw : (s.thread q).waking = some (chan, j) := by
    rw [← code_of_agent hq, hpc]
    rfl
  rcases (reachable_sleepers h).waking q chan j hw p n ho with hr | ⟨-, hle, -⟩
  · exact hr
  · have := p.isLt
    omega

end Xv6.Sched
