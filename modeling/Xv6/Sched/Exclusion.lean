import Xv6.Sched.Running

/-! A process runs on at most one CPU, and a process that has given up its CPU goes on where its
context was saved. -/
namespace Xv6.Sched

open Proc (ProcState)
open Pc Kernel

variable {N : ℕ} {σ K : Type} {client : Client σ K} {init : σ → Prop} {s t : Kernel N σ K}
  {c d : Fin N} {p q np : Slot} {f : K → ℕ → Bool} {me : Option Slot} {k k' : Pc K}

/-- The process that a call of `fork` in progress has allocated. -/
def Pc.forking : Pc K → Option Slot
  | acquire _ k | release _ k | acquireLk _ k | releaseLk _ k | yielding _ k | sched _ k | swtch _ k
  | sleeping _ _ k | tidy _ k | wakeup _ _ k | wakeOne _ _ k => k.forking
  | fork _ np _ | setParent _ np _ _ | setRunnable np _ _ => some np
  | _ => none

/-- A process that `fork` has not yet made runnable is the child of one call only. -/
structure Forks (s : Kernel N σ K) : Prop where
  state : ∀ p np, (s.thread p).forking = some np → (s.proc np).state = .used
  unique : ∀ p q np, (s.thread p).forking = some np → (s.thread q).forking = some np → p = q

theorem Pc.holdsLk_client_of_none {x : K} (h : ∀ m, f x m = false) (m : Lock) :
    (Pc.client x).holdsLk f m = false := by
  cases m with
  | wait => rfl
  | other n => exact h n

theorem Pc.holdsLk_client_of_only {x : K} {l : ℕ} (h : ∀ m, f x m = decide (m = l)) (m : Lock) :
    (Pc.client x).holdsLk f m = decide (m = .other l) := by
  cases m with
  | wait => rfl
  | other n => simp [holdsLk, h n]

theorem Pc.holdsLk_client_congr {x y : K} (h : ∀ m, f y m = f x m) (m : Lock) :
    (Pc.client y).holdsLk f m = (Pc.client x).holdsLk f m := by
  cases m with
  | wait => rfl
  | other n => exact h n

theorem Forks.of_code (h : Forks s) (hpc : s.code c = k) (hk : k.forking = some np)
    (hme : (s.agent c).isSome) : (s.proc np).state = .used := by
  obtain ⟨p, hp⟩ := Option.isSome_iff_exists.mp hme
  apply h.state p
  rw [← code_of_agent hp, hpc, hk]

namespace Control

theorem sleepStep (h : Control f s) {chan : Chan} (hpc : s.code c = .sleeping chan p k) :
    Control f ((s.goto c (.sched p (.tidy p k))).setProc p
      { s.proc p with chan := some chan, state := .sleeping }) := by
  have hok := h.ok c
  rw [hpc, Ok] at hok
  obtain ⟨hp, hk⟩ := hok
  apply h.modify_me ⟨?_, ?_, ?_, ?_⟩ hp
  · rfl
  · exact ⟨rfl, Or.inr ⟨fun _ => rfl, fun _ => rfl, rfl, rfl, rfl, chan, hk⟩⟩
  · simp [hpc, holds]
  · simp [hpc, holdsLk]
  · rw [hpc]
    rfl

theorem tidyStep (h : Control f s) (hpc : s.code c = .tidy p k) :
    Control f ((s.goto c (.release p k)).setProc p { s.proc p with chan := none }) := by
  have hok := h.ok c
  rw [hpc, Ok] at hok
  obtain ⟨hp, chan, hk⟩ := hok
  have hst := h.state c p (proc_of_agent hp)
  rw [hpc] at hst
  have hrun : (s.proc p).state = .running := hst
  apply h.modify_me ⟨?_, ?_, ?_, ?_⟩ hp
  · show k.expects (s.proc p).state
    rw [hrun]
    exact hk.ok.2.2.2.1
  · exact ⟨hk.ok.2.1, by simp [hk.ok.2.2.2.2], hk.ok.1⟩
  · simp [hpc, holds, hk.ok.2.1]
  · intro m
    rw [hpc]
    exact hk.ok.2.2.1 m
  · rw [hpc]
    rfl

theorem rouse (h : Control f s) {j : Slot} {r : Process K} (hm : (s.code c).Moves f (s.agent c) k)
    (hact : ∀ st, (s.code c).expects st → st = .running) (hk : k.expects .running)
    (hc : (s.code c).holds j = true) (hs : (s.proc j).state = .sleeping)
    (hr : r.state = .runnable) (hctx : r.context = (s.proc j).context) :
    Control f ((s.goto c k).setProc j r) := by
  refine h.modify_other hm hact hk hc (by rw [hs]; decide) (by rw [hr]; decide) fun _ _ => ?_
  rw [hs]
  exact ⟨by decide, by decide, hctx⟩

/-- Every step keeps the locks and the states of the processes consistent, one case for each
instruction. -/
theorem step (h : Control client.holds s) (hf : Forks s) (hst : Step client s t) :
    Control client.holds t := by
  cases hst with
  | acquire c p k hpc hl => exact h.acquire hpc hl
  | release c p k hpc hl => exact h.release hpc
  | acquireLk c l k hpc hl =>
    exact (h.acquireLk hpc hl).congr rfl rfl rfl (by simp [enterLock]) rfl
  | releaseLk c l k hpc hl => exact h.releaseLk hpc
  | scan c i hpc =>
    have hok := h.ok c
    rw [hpc, Ok] at hok
    exact h.move hpc ⟨by simp [Ok, naps, holds, expects, runs, hok], by simp [holds], by simp [holdsLk], rfl⟩
      (fun _ => id)
  | scanEnd c i hpc hi =>
    have hok := h.ok c
    rw [hpc, Ok] at hok
    exact h.move hpc ⟨by simp [Ok, hok], by simp [holds], by simp [holdsLk], rfl⟩ (fun _ => id)
  | pick c i hpc hr => exact h.pick hpc hr
  | pass c i hpc hr =>
    have hok := h.ok c
    rw [hpc, Ok] at hok
    exact h.move hpc ⟨by simp [Ok, naps, holds, hok], by simp [holds], by simp [holdsLk], rfl⟩ (fun _ => id)
  | switchTo c i hpc => exact h.switchTo hpc
  | back c i hpc => exact h.backStep hpc
  | interrupt c i chan hpc =>
    have hok := h.ok c
    rw [hpc, Ok] at hok
    refine h.move hpc ⟨?_, fun _ => rfl, fun _ => rfl, rfl⟩ (fun _ => id)
    rw [hok]
    exact .scan i
  | sched c p k hpc hl hs =>
    have hok := h.ok c
    rw [hpc, Ok] at hok
    exact h.move hpc ⟨hok, fun _ => rfl, fun _ => rfl, rfl⟩ (fun _ => id)
  | swtch c p k hpc => exact h.swtch hpc
  | preempt c p hp hl hl' => exact h.preempt hp hl hl'
  | yielding c p k hpc =>
    have hok := h.ok c
    rw [hpc, Ok] at hok
    obtain ⟨hp, hh, hl, he, hn, hk⟩ := hok
    apply h.modify_me ⟨?_, ?_, ?_, ?_⟩ hp
    · rfl
    · rw [hp] at hk
      exact ⟨rfl, Or.inr ⟨by simp [holds, hh], hl, he, hn, hh, by simp [hn], hk⟩⟩
    · simp [hpc, holds]
    · simp [hpc, holdsLk]
    · rw [hpc]
      rfl
  | sleeping c chan p k hpc => exact h.sleepStep hpc
  | tidy c p k hpc => exact (h.tidyStep hpc).congr rfl rfl rfl rfl rfl
  | wakeup c chan j k hpc hj =>
    have hok := h.ok c
    rw [hpc, Ok] at hok
    refine h.move hpc ⟨?_, ?_, fun _ => rfl, rfl⟩ (fun _ => id)
    · refine ⟨fun _ => rfl, rfl, rfl, (by simp [naps]), hok, fun hne => hj ?_⟩
      exact proc_of_agent hne
    · simp [holds, hok.ok.2.1]
  | wakeupSelf c chan j k hpc hj =>
    have hok := h.ok c
    rw [hpc, Ok] at hok
    exact h.move hpc ⟨hok, fun _ => rfl, fun _ => rfl, rfl⟩ (fun _ => id)
  | wakeupEnd c chan j k hpc hj =>
    have hok := h.ok c
    rw [hpc, Ok] at hok
    refine h.move hpc ⟨hok.ok.1, fun _ => rfl, fun _ => rfl, hok.ok.2.2.2.1⟩ ?_
    rintro st rfl
    exact hok.ok.2.2.1
  | wakeOne c chan j k hpc hs hc =>
    have hok := h.ok c
    rw [hpc, Ok] at hok
    refine (h.rouse (j := j) (k := .release j (.wakeup chan (j + 1) k))
      (r := { s.proc j with state := .runnable }) ⟨?_, ?_, ?_, by simp [hpc, runs]⟩ ?_ rfl ?_ hs rfl
      rfl).congr (by simp [Kernel.rouse, setProc]) rfl rfl rfl rfl
    · exact ⟨by simp [holds, hok.1.ok.2.1], (by simp [naps]), hok.1⟩
    · simp [hpc, holds, hok.1.ok.2.1]
    · simp [hpc, holdsLk]
    · simp [hpc, expects]
    · simp [hpc, holds]
  | wakeNone c chan j k hpc hs =>
    have hok := h.ok c
    rw [hpc, Ok] at hok
    refine h.move hpc ⟨⟨by simp [holds, hok.1.ok.2.1], (by simp [naps]), hok.1⟩, ?_, fun _ => rfl, rfl⟩ (fun _ => id)
    simp [holds, hok.1.ok.2.1]
  | kill c pid j x hpc =>
    have hok := h.ok c
    rw [hpc, Ok] at hok
    exact h.move hpc ⟨by simp [Ok, naps, holds, expects, runs, hok], by simp [holds], by simp [holdsLk], rfl⟩
      (fun _ => id)
  | killEnd c pid j x hpc hj =>
    have hok := h.ok c
    rw [hpc, Ok] at hok
    exact h.move hpc ⟨hok.1, by simp [holds], by simp [holdsLk, holdsLk_client_of_none, hok], rfl⟩
      (fun _ => id)
  | killSleeping c pid j x hpc hp hs =>
    have hok := h.ok c
    rw [hpc, Ok] at hok
    refine (h.rouse (j := j) (k := .release j (.client (x 0)))
      (r := { s.proc j with killed := true, state := .runnable }) ⟨?_, ?_, ?_, by simp [hpc, runs]⟩ ?_
      rfl ?_ hs rfl rfl).congr ?_ rfl rfl rfl rfl
    · exact ⟨fun _ => rfl, (by simp [naps]), hok.1⟩
    · simp [hpc, holds]
    · simp [hpc, holdsLk, holdsLk_client_of_none, hok]
    · simp [hpc, expects]
    · simp [hpc, holds]
    · funext q
      by_cases hq : q = j <;> simp [Kernel.rouse, hq]
  | killOne c pid j x hpc hp hs =>
    have hok := h.ok c
    rw [hpc, Ok] at hok
    refine h.modify_same ⟨⟨fun _ => rfl, (by simp [naps]), hok.1⟩, ?_, ?_, by simp [hpc, runs]⟩ ?_ rfl rfl
    · simp [hpc, holds]
    · simp [hpc, holdsLk, holdsLk_client_of_none, hok]
    · simp [hpc, expects]
  | killNone c pid j x hpc hp =>
    have hok := h.ok c
    rw [hpc, Ok] at hok
    exact h.move hpc ⟨by simp [Ok, naps, holds, hok], by simp [holds], by simp [holdsLk], rfl⟩ (fun _ => id)
  | setKilled c p x hpc =>
    have hok := h.ok c
    rw [hpc, Ok] at hok
    refine (h.modify_same (p := p) (k := .release p (.client x)) (r := { s.proc p with killed := true })
      ⟨?_, ?_, ?_, by simp [hpc, runs]⟩ ?_ rfl rfl).congr rfl rfl rfl rfl rfl
    · simp [Ok, naps, holds, hok.1]
    · simp [hpc, holds]
    · simp [hpc, holdsLk, holdsLk_client_of_none, hok]
    · simp [hpc, expects]
  | readKilled c p x hpc =>
    have hok := h.ok c
    rw [hpc, Ok] at hok
    refine h.move hpc ⟨by simp [Ok, naps, holds, hok.1], by simp [holds], fun m => ?_, rfl⟩ (fun _ => id)
    rw [holdsLk_readKilled]
    cases (s.proc p).killed with
    | false => rfl
    | true => exact holdsLk_client_congr hok.2 m
  | allocproc c p i x hpc =>
    have hok := h.ok c
    rw [hpc, Ok] at hok
    exact h.move hpc ⟨by simp [Ok, naps, holds, expects, runs, hok], by simp [holds], by simp [holdsLk], rfl⟩
      (fun _ => id)
  | allocEnd c p i x hpc hi =>
    have hok := h.ok c
    rw [hpc, Ok] at hok
    exact h.move hpc ⟨by simp [Ok, hok.1], by simp [holds],
      by simp [holdsLk, holdsLk_client_of_none, hok], rfl⟩ (fun _ => id)
  | allocUsed c p i x hpc hs =>
    have hok := h.ok c
    rw [hpc, Ok] at hok
    exact h.move hpc ⟨by simp [Ok, naps, holds, hok], by simp [holds], by simp [holdsLk], rfl⟩ (fun _ => id)
  | allocOne c p i x hpc hs =>
    have hok := h.ok c
    rw [hpc, Ok] at hok
    have hoff := h.off_cpu (c := c) (q := i) (by simp [hpc, expects]) (by simp [hpc, holds])
      (by rw [hs]; decide)
    have hcode := (code_birth client.start hoff c).trans hpc
    refine (h.birth client.start_holds hoff).move hcode ⟨?_, ?_, ?_, rfl⟩ (fun _ => id)
    · exact hok
    · simp [holds]
    · simp [holdsLk]
  | forkFail c p np x hpc =>
    have hok := h.ok c
    rw [hpc, Ok] at hok
    have hs := hf.of_code hpc rfl (by simp [hok.1])
    refine h.modify_other ⟨?_, ?_, ?_, by simp [hpc, runs]⟩ (by simp [hpc, expects]) rfl
      (by simp [hpc, holds]) (by rw [hs]; decide) (by simp [Process.free]) (by simp [Process.free])
    · simp [Ok, naps, holds, hok.1]
    · simp [hpc, holds]
    · simp [hpc, holdsLk, holdsLk_client_of_none, hok]
  | fork c p np x hpc =>
    have hok := h.ok c
    rw [hpc, Ok] at hok
    exact h.move hpc ⟨by simp [Ok, naps, holds, holdsLk, hok], by simp [holds], by simp [holdsLk], rfl⟩
      (fun _ => id)
  | setParent c p np pid x hpc =>
    have hok := h.ok c
    rw [hpc, Ok] at hok
    refine h.modify_same ⟨?_, ?_, ?_, by simp [hpc, runs]⟩ (by simp [hpc, expects]) rfl rfl
    · simp [Ok, naps, holds, holdsLk, expects, runs, hok]
    · simp [hpc, holds]
    · simp [hpc, holdsLk]
  | setRunnable c np pid x hpc =>
    have hok := h.ok c
    rw [hpc, Ok] at hok
    have hs := hf.of_code hpc rfl hok.1
    refine h.modify_other ⟨⟨fun _ => rfl, (by simp [naps]), hok.1⟩, ?_, ?_, by simp [hpc, runs]⟩ (by simp [hpc, expects])
      rfl (by simp [hpc, holds]) (by rw [hs]; decide) (by simp) fun _ _ => ?_
    · simp [hpc, holds]
    · simp [hpc, holdsLk, holdsLk_client_of_none, hok]
    · rw [hs]
      exact ⟨by decide, by decide, rfl⟩
  | reparent c p status i hpc hp =>
    have hok := h.ok c
    rw [hpc, Ok] at hok
    refine (h.modify_same (p := i) (k := .wakeup (.proc initproc) 0 (.reparent p status (i + 1)))
      (r := { s.proc i with parent := some initproc })
      ⟨?_, by simp [hpc, holds], by simp [hpc, holdsLk], by simp [hpc, runs]⟩ (by simp [hpc, expects])
      rfl rfl).congr rfl rfl rfl rfl rfl
    rw [hok]
    exact .reparent status (i + 1)
  | reparentNone c p status i hpc hp =>
    have hok := h.ok c
    rw [hpc, Ok] at hok
    exact h.move hpc ⟨hok, fun _ => rfl, fun _ => rfl, rfl⟩ (fun _ => id)
  | exitWakeup c p status i q hpc hi hq =>
    have hok := h.ok c
    rw [hpc, Ok] at hok
    have hm : (Pc.reparent p status i : Pc K).Moves client.holds (s.agent c)
        (.wakeup (.proc q) 0 (.acquire p (.zombie p status))) := by
      rw [hok]
      exact ⟨.zombie status, by simp [holds], fun _ => rfl, rfl⟩
    exact (h.move hpc hm (fun _ => id)).congr rfl rfl rfl rfl rfl
  | zombie c p status hpc =>
    have hok := h.ok c
    rw [hpc, Ok] at hok
    refine (h.modify_me (p := p) (k := .releaseLk .wait (.sched p .dead))
      (r := { s.proc p with xstate := status, state := .zombie })
      ⟨?_, by simp [hpc, holds], by simp [hpc, holdsLk], by simp [hpc, runs]⟩ hok rfl).congr
        rfl rfl rfl rfl rfl
    exact ⟨rfl, rfl, (by simp [naps]), rfl, Or.inl rfl⟩
  | waitScan c p i kids x hpc hp =>
    have hok := h.ok c
    rw [hpc, Ok] at hok
    exact h.move hpc ⟨by simp [Ok, naps, holds, expects, runs, hok], by simp [holds], by simp [holdsLk], rfl⟩
      (fun _ => id)
  | waitSkip c p i kids x hpc hp =>
    have hok := h.ok c
    rw [hpc, Ok] at hok
    exact h.move hpc ⟨hok, fun _ => rfl, fun _ => rfl, rfl⟩ (fun _ => id)
  | waitNone c p i x hpc hi =>
    have hok := h.ok c
    rw [hpc, Ok] at hok
    exact h.move hpc ⟨by simp [Ok, naps, runs, holdsLk, hok.1], by simp [holds],
      by simp [holdsLk, holdsLk_client_of_none, hok], rfl⟩ (fun _ => id)
  | waitKids c p i x hpc hi =>
    have hok := h.ok c
    rw [hpc, Ok] at hok
    exact h.move hpc ⟨by simp [Ok, naps, holds, expects, runs, hok], by simp [holds], by simp [holdsLk], rfl⟩
      (fun _ => id)
  | waitFree c p i x hpc hs =>
    have hok := h.ok c
    rw [hpc, Ok] at hok
    refine (h.modify_other (p := i)
      (k := .release i (.releaseLk .wait (.client (x (s.proc i).pid.toInt))))
      (r := (s.proc i).free) ⟨?_, ?_, ?_, by simp [hpc, runs]⟩ ?_ rfl ?_ ?_ (by simp [Process.free])
      (by simp [Process.free])).congr rfl rfl rfl rfl rfl
    · simp [Ok, naps, holds, holdsLk, runs, hok.1]
    · simp [hpc, holds]
    · simp [hpc, holdsLk, holdsLk_client_of_none, hok]
    · simp [hpc, expects]
    · simp [hpc, holds]
    · simp [hs]
  | waitCopyout c p i x hpc hs =>
    have hok := h.ok c
    rw [hpc, Ok] at hok
    exact h.move hpc ⟨by simp [Ok, naps, holds, holdsLk, runs, hok.1], by simp [holds],
      by simp [holdsLk, holdsLk_client_of_none, hok], rfl⟩ (fun _ => id)
  | waitMore c p i x hpc hs =>
    have hok := h.ok c
    rw [hpc, Ok] at hok
    exact h.move hpc ⟨by simp [Ok, naps, holds, hok], by simp [holds], by simp [holdsLk], rfl⟩ (fun _ => id)
  | waitKilled c p x hpc hk =>
    have hok := h.ok c
    rw [hpc, Ok] at hok
    exact h.move hpc ⟨by simp [Ok, naps, holds, holdsLk, runs, hok.1], by simp [holds],
      by simp [holdsLk, holdsLk_client_of_none, hok], rfl⟩ (fun _ => id)
  | waitSleep c p x hpc hk =>
    have hok := h.ok c
    rw [hpc, Ok] at hok
    refine (h.move (k := .release p (.sleep p (.proc p) .wait (.waitScan p 0 false x))) hpc
      ⟨?_, ?_, ?_, rfl⟩ (fun _ => id)).congr rfl rfl rfl rfl rfl
    · simp [Ok, naps, Pc.sleep, holds, holdsLk, expects, runs, hok.1]
      exact .wait p x hok.2
    · simp [Pc.sleep, holds]
    · simp [Pc.sleep, holdsLk]
  | callAcquire c p x l k hpc hp hc =>
    have hk := client.calls_keeps hc
    refine h.move hpc ⟨?_, by simp [holds], fun m => ?_, rfl⟩ (fun _ => id)
    · simp [Ok, naps, holds, holdsLk, hp, hk.2]
    · cases m with
      | wait => simp [holdsLk]
      | other n =>
        by_cases hn : n = l
        · simp [holdsLk, hn, hk.1]
        · simp [holdsLk, hn, hk.2]
  | callRelease c p x l k hpc hp hc =>
    have hk := client.calls_keeps hc
    refine h.move hpc ⟨?_, by simp [holds], fun m => ?_, rfl⟩ (fun _ => id)
    · simp [Ok, naps, runs, holdsLk, hp, hk.1]
    · cases m with
      | wait => simp [holdsLk]
      | other n => simp [holdsLk, hk.2 n]
  | callSleep c p x chan l k hpc hp hc =>
    have hk := client.calls_keeps hc
    refine (h.move (k := .sleep p (.other chan) (.other l) (.client k)) hpc ⟨?_, ?_, ?_, rfl⟩
      (fun _ => id)).congr rfl rfl rfl rfl rfl
    · simp [Ok, naps, Pc.sleep, holds, holdsLk, expects, runs, hp]
      exact .client p chan l k fun m => (hk m).2
    · simp [Pc.sleep, holds]
    · intro m
      rw [holdsLk_client_of_only fun m => (hk m).1]
      simp [Pc.sleep, holdsLk]
  | callWakeup c p x chan k hpc hp hc =>
    have hk := client.calls_keeps hc
    have hm : (Pc.client x : Pc K).Moves client.holds (s.agent c)
        (.wakeup (.other chan) 0 (.client k)) := by
      rw [hp]
      exact ⟨.client k, fun _ => rfl, holdsLk_client_congr hk, rfl⟩
    exact (h.move hpc hm (fun _ => id)).congr rfl rfl rfl rfl rfl
  | callKilled c p x k hpc hp hc =>
    have hk := client.calls_keeps hc
    refine h.move hpc ⟨?_, by simp [holds], fun m => ?_, rfl⟩ (fun _ => id)
    · simp [Ok, naps, holds, expects, runs, hp]
      intro m
      rw [hk true m, hk false m]
    · rw [holdsLk, holdsLk_readKilled]
      exact holdsLk_client_congr (hk false) m
  | callSetkilled c p x k hpc hp hc =>
    have hk := client.calls_keeps hc
    refine h.move hpc ⟨?_, by simp [holds], fun m => ?_, rfl⟩ (fun _ => id)
    · simp [Ok, naps, holds, expects, runs, hp, hk _]
    · rw [holdsLk_client_of_none fun m => (hk m).1]
      rfl
  | callKill c p x pid k hpc hp hc =>
    have hk := client.calls_keeps hc
    refine (h.move (k := .kill pid 0 k) hpc ⟨?_, by simp [holds], fun m => ?_, rfl⟩
      (fun _ => id)).congr rfl rfl rfl rfl rfl
    · simp [Ok, hp, (hk _).2]
    · rw [holdsLk_client_of_none fun m => (hk m).1]
      rfl
  | callFork c p x k hpc hp hc =>
    have hk := client.calls_keeps hc
    refine h.move hpc ⟨?_, by simp [holds], fun m => ?_, rfl⟩ (fun _ => id)
    · simp [Ok, hp, (hk _).2]
    · rw [holdsLk_client_of_none fun m => (hk m).1]
      rfl
  | callExit c p x status hpc hp hi hc =>
    have hk := client.calls_keeps hc
    refine h.move hpc ⟨?_, by simp [holds], fun m => ?_, rfl⟩ (fun _ => id)
    · simp [Ok, naps, holds, holdsLk, hp]
    · rw [holdsLk_client_of_none hk]
      simp [holdsLk]
  | callWait c p x k hpc hp hc =>
    have hk := client.calls_keeps hc
    refine h.move hpc ⟨?_, by simp [holds], fun m => ?_, rfl⟩ (fun _ => id)
    · simp [Ok, naps, holds, holdsLk, hp, (hk _).2]
    · rw [holdsLk_client_of_none fun m => (hk m).1]
      simp [holdsLk]
  | move c p x y d hpc hp hm =>
    refine (h.move (k := .client y) hpc ⟨?_, by simp [holds], ?_, rfl⟩ (fun _ => id)).congr
      rfl rfl rfl rfl rfl
    · simp [Ok, hp]
    · exact holdsLk_client_congr (client.moves_holds hm)
  | device d hd => exact h.congr rfl rfl rfl rfl rfl

end Control

namespace Forks

theorem congr (h : Forks s) (hth : t.thread = s.thread)
    (hst : ∀ q, (t.proc q).state = (s.proc q).state) : Forks t := by
  constructor
  · intro p np
    rw [hth, hst]
    exact h.state p np
  · rw [hth]
    exact h.unique

theorem of_goto (h : Forks s) (hth : t.thread = (s.goto c k).thread) (hpc : s.code c = k')
    (hk : k.forking = k'.forking ∨ k.forking = none)
    (hs : ∀ q, (s.proc q).state = .used → (t.proc q).state = .used) : Forks t := by
  have hle : ∀ q np, (t.thread q).forking = some np → (s.thread q).forking = some np := by
    intro q np hq
    rw [hth, thread_goto] at hq
    split_ifs at hq with hc
    · rcases hk with hk | hk
      · rw [← code_of_agent hc, hpc, ← hk, hq]
      · rw [hk] at hq
        cases hq
    · exact hq
  constructor
  · intro p np hp
    exact hs np (h.state p np (hle p np hp))
  · intro p q np hp hq
    exact h.unique p q np (hle p np hp) (hle q np hq)

/-- The CPU `c` moves and changes a process that is not between `allocproc` and the end of `fork`,
or does not change its state. -/
theorem of_setProc (h : Forks s) {r : Process K} (hth : t.thread = (s.goto c k).thread)
    (hproc : t.proc = ((s.goto c k).setProc p r).proc) (hpc : s.code c = k')
    (hk : k.forking = k'.forking ∨ k.forking = none)
    (hr : (s.proc p).state = .used → r.state = .used) : Forks t := by
  apply h.of_goto hth hpc hk
  intro q hq
  rw [hproc, proc_setProc, proc_goto]
  split_ifs with hqp
  · subst hqp
    exact hr hq
  · exact hq

theorem finish (h : Forks s) {r : Process K} (hpc : s.code c = k') (hk' : k'.forking = some np)
    (hk : k.forking = none) (hme : (s.agent c).isSome) : Forks ((s.goto c k).setProc np r) := by
  obtain ⟨p, hp⟩ := Option.isSome_iff_exists.mp hme
  have hfork : (s.thread p).forking = some np := by rw [← code_of_agent hp, hpc, hk']
  have hle : ∀ q np', ((s.goto c k).thread q).forking = some np' →
      (s.thread q).forking = some np' ∧ np' ≠ np := by
    intro q np' hq
    rw [thread_goto] at hq
    split_ifs at hq with hc
    · rw [hk] at hq
      cases hq
    · refine ⟨hq, ?_⟩
      rintro rfl
      exact hc (hp.trans (congrArg some (h.unique p q np' hfork hq)))
  constructor
  · intro q np' hq
    obtain ⟨hq, hne⟩ := hle q np' hq
    simpa [hne] using h.state q np' hq
  · intro q q' np' hq hq'
    exact h.unique q q' np' (hle q np' hq).1 (hle q' np' hq').1

theorem begin (h : Forks s) {start : K} {i : Slot} (hs : (s.proc i).state = .unused)
    (hp : s.agent c = some p) (hk : k.forking = some i) :
    Forks ((s.birth start i).goto c k) := by
  have hle : ∀ q np, (((s.birth start i).goto c k).thread q).forking = some np →
      q = p ∧ np = i ∨ (s.thread q).forking = some np ∧ np ≠ i := by
    intro q np hq
    rw [thread_goto] at hq
    split_ifs at hq with hc
    · rw [hk] at hq
      exact Or.inl ⟨Option.some.inj (hc.symm.trans hp), (Option.some.inj hq).symm⟩
    · right
      have hqi : q ≠ i := by
        rintro rfl
        simp [Kernel.birth, Pc.forking] at hq
      simp only [Kernel.birth, Function.update_of_ne hqi] at hq
      refine ⟨hq, ?_⟩
      rintro rfl
      rw [h.state q np hq] at hs
      cases hs
  constructor
  · intro q np hq
    rcases hle q np hq with ⟨-, rfl⟩ | ⟨hq, hne⟩
    · simp [Kernel.birth]
    · simpa [Kernel.birth, hne] using h.state q np hq
  · intro q q' np hq hq'
    rcases hle q np hq with ⟨rfl, rfl⟩ | ⟨hq, hne⟩
    · rcases hle q' np hq' with ⟨rfl, -⟩ | ⟨-, hne⟩
      · rfl
      · exact absurd rfl hne
    · rcases hle q' np hq' with ⟨-, rfl⟩ | ⟨hq', -⟩
      · exact absurd rfl hne
      · exact h.unique q q' np hq hq'

theorem step (hc : Control client.holds s) (h : Forks s) (hst : Step client s t) : Forks t := by
  cases hst with
  | pick c i hpc hr =>
    refine ⟨?_, h.unique⟩
    intro q np hq
    have hs := h.state q np hq
    have hne : np ≠ i := by
      rintro rfl
      rw [hr] at hs
      cases hs
    simpa [hne] using hs
  | switchTo c i hpc =>
    obtain ⟨-, -, -, -, hctx⟩ := hc.thread_of_switchTo hpc
    rw [hctx, Function.update_eq_self]
    exact ⟨h.state, h.unique⟩
  | back c i hpc => exact ⟨h.state, h.unique⟩
  | swtch c p k hpc =>
    have hok := hc.ok c
    rw [hpc, Ok] at hok
    refine (h.of_setProc (t := (s.goto c k).setProc p { s.proc p with context := k }) rfl rfl hpc
      (Or.inl rfl) id).congr ?_ ?_
    · simp [goto, hok.1]
    · simp
  | preempt c p hp hl hl' =>
    exact h.of_goto rfl (code_of_agent hp) (by simp [forking]) (by simp)
  | yielding c p k hpc =>
    have hok := hc.ok c
    rw [hpc, Ok] at hok
    have hst := hc.state c p (proc_of_agent hok.1)
    rw [hpc] at hst
    exact h.of_setProc rfl rfl hpc (by simp [forking]) (by simp [show _ = _ from hst])
  | sleeping c chan p k hpc =>
    have hok := hc.ok c
    rw [hpc, Ok] at hok
    have hst := hc.state c p (proc_of_agent hok.1)
    rw [hpc] at hst
    exact h.of_setProc rfl rfl hpc (by simp [forking]) (by simp [show _ = _ from hst])
  | zombie c p status hpc =>
    have hok := hc.ok c
    rw [hpc, Ok] at hok
    have hst := hc.state c p (proc_of_agent hok)
    rw [hpc] at hst
    exact h.of_setProc rfl rfl hpc (by simp [forking]) (by simp [show _ = _ from hst])
  | wakeOne c chan j k hpc hs hchan =>
    exact h.of_setProc (p := j) rfl rfl hpc (by simp [forking]) (by simp [hs])
  | killSleeping c pid j x hpc hp hs =>
    refine h.of_goto (k := .release j (.client (x 0))) rfl hpc (by simp [forking]) ?_
    intro q hq
    have hqj : q ≠ j := by
      rintro rfl
      rw [hs] at hq
      cases hq
    simpa [hqj] using hq
  | allocOne c p i x hpc hs =>
    have hok := hc.ok c
    rw [hpc, Ok] at hok
    exact h.begin hs hok.1 rfl
  | forkFail c p np x hpc =>
    have hok := hc.ok c
    rw [hpc, Ok] at hok
    exact h.finish hpc rfl rfl (by simp [hok.1])
  | setRunnable c np pid x hpc =>
    have hok := hc.ok c
    rw [hpc, Ok] at hok
    exact h.finish hpc rfl rfl hok.1
  | waitFree c p i x hpc hs =>
    exact h.of_setProc (p := i) rfl rfl hpc (by simp [forking]) (by simp [hs])
  | device d hd => exact ⟨h.state, h.unique⟩
  | tidy c p k hpc => exact h.of_setProc (p := p) rfl rfl hpc (by simp [forking]) id
  | killOne c pid j x hpc hp hs =>
    exact h.of_setProc (p := j) rfl rfl hpc (by simp [forking]) id
  | setKilled c p x hpc => exact h.of_setProc (p := p) rfl rfl hpc (by simp [forking]) id
  | setParent c p np pid x hpc =>
    exact h.of_setProc (p := np) rfl rfl hpc (by simp [forking]) id
  | reparent c p status i hpc hp =>
    exact h.of_setProc (p := i) rfl rfl hpc (by simp [forking]) id
  | _ => exact h.of_goto rfl ‹_› (by simp [forking, Pc.sleep]) (by simp)

end Forks

theorem Initial.control (h : Initial client init s) : Control client.holds s ∧ Forks s := by
  have hagent : ∀ c, s.agent c = none := by
    intro c
    apply agent_of_ne_away
    rw [(h.cpu c).2]
    simp
  have hcode : ∀ c, s.code c = .scan 0 := by
    intro c
    rw [code_of_scheduler (hagent c), (h.cpu c).2]
  have hfork : ∀ p np, (s.thread p).forking ≠ some np := by
    intro p np
    by_cases hp : p = initproc
    · rw [hp, h.thread]
      simp [forking]
    · rw [h.idle p hp]
      simp [forking]
  refine ⟨⟨?_, ?_, ?_, ?_, ?_, ?_, ?_, ?_, ?_⟩, fun p np hp => absurd hp (hfork p np),
    fun p _ np hp => absurd hp (hfork p np)⟩
  · intro c
    rw [hcode, hagent]
    rfl
  · intro c q
    simp [hcode, h.plock, holds]
  · intro c m
    simp [hcode, h.lock, holdsLk]
  · intro c _
    rw [(h.cpu c).1, (h.cpu c).2]
    rfl
  · intro c p hp
    rw [(h.cpu c).1] at hp
    cases hp
  · intro c _ p hp
    rw [(h.cpu c).1] at hp
    cases hp
  · intro p hp
    by_cases hi : p = initproc
    · rw [hi, h.first] at hp
      cases hp
    · rw [(h.others p hi).1] at hp
      cases hp
  · intro p _ h1 _
    by_cases hi : p = initproc
    · subst hi
      rw [h.thread, h.first]
      refine ⟨⟨by simp [holds], ?_, rfl, rfl, by simp [Ok, naps, holds]⟩, rfl⟩
      intro m
      exact holdsLk_client_of_none client.start_holds m
    · exact absurd (h.others p hi).1 h1
  · intro c p hp
    rw [hagent] at hp
    cases hp

/-- The control invariant holds in every run of every client. -/
theorem reachable_control (h : (machine N client init).Reachable s) :
    Control client.holds s ∧ Forks s := by
  apply h.invariant (I := fun s => Control client.holds s ∧ Forks s)
  · intro s hs
    exact Initial.control hs
  · intro s t _ hs hst
    exact ⟨hs.1.step hs.2 hst, hs.2.step hs.1 hst⟩

theorem Control.state_of_free (h : Control f s) (hp : (s.cpu c).proc = some p)
    (hl : s.plock p = none) : (s.proc p).state = .running := by
  have hst := h.state c p hp
  have hfree : (s.code c).holds p ≠ true := by
    intro hh
    have := (h.plock c p).mpr hh
    rw [hl] at this
    cases this
  have hok := h.ok c
  by_contra hne
  cases ha : s.agent c with
  | some q =>
    obtain rfl : q = p := Option.some.inj ((proc_of_agent ha).symm.trans hp)
    rw [ha] at hok
    exact hfree (holds_of_expects hok hst hne)
  | none =>
    have hr := h.proc c ha
    rw [hp, ← code_of_scheduler ha] at hr
    cases hk : s.code c <;> rw [hk] at hr hfree <;> simp [runs, holds] at hr hfree
    all_goals exact hfree hr

/-- A process runs on at most one CPU, and the state of a process whose lock is free says whether it
runs. One that waits for a CPU or for `wakeup` goes on where it has stopped, and `wait` does not
free a process that still runs. -/
theorem runs_on_one_cpu (h : (machine N client init).Reachable s) :
    (∀ c d p, (s.cpu c).proc = some p → (s.cpu d).proc = some p → c = d) ∧
    (∀ p, s.plock p = none →
      ((s.proc p).state = .running ↔ ∃! c, (s.cpu c).proc = some p)) ∧
    (∀ p, s.plock p = none → (s.proc p).state = .runnable ∨ (s.proc p).state = .sleeping →
      (∀ c, (s.cpu c).proc ≠ some p) ∧ (s.proc p).context = s.thread p) ∧
    (∀ c p i x, s.code c = .waitOne p i x → (s.proc i).state = .zombie →
      ∀ d, (s.cpu d).proc ≠ some i) := by
  obtain ⟨hc, -⟩ := reachable_control h
  refine ⟨hc.unique, ?_, ?_, ?_⟩
  · intro p hl
    constructor
    · intro hr
      obtain ⟨c, hp⟩ := hc.running p hr
      exact ⟨c, hp, fun d hd => hc.unique d c p hd hp⟩
    · rintro ⟨c, hp, -⟩
      exact hc.state_of_free hp hl
  · intro p hl hs
    have hoff : ∀ c, (s.cpu c).proc ≠ some p := by
      intro c hp
      rw [hc.state_of_free hp hl] at hs
      rcases hs with hs | hs <;> cases hs
    refine ⟨hoff, (hc.context p (fun c hp => hoff c (proc_of_agent hp)) ?_ ?_).2⟩
    · rcases hs with hs | hs <;> rw [hs] <;> decide
    · rcases hs with hs | hs <;> rw [hs] <;> decide
  · intro c p i x hpc hs
    exact hc.off_cpu (c := c) (by simp [hpc, expects]) (by simp [hpc, holds]) (by rw [hs]; decide)

theorem runs_on_one_cpu_first : ∃ s : Kernel 2 Unit Unit,
    (machine 2 processes fun _ => True).Reachable s ∧ (s.proc initproc).state = .running ∧
      (s.cpu 0).proc = some initproc ∧ (s.cpu 1).proc ≠ some initproc := by
  have h₀ : (machine 2 processes fun _ => True).Reachable (boot 2 processes ()) :=
    .init (boot_initial trivial)
  have h := ((h₀.step (.scan 0 initproc rfl)).step (.acquire 0 initproc _ rfl rfl)).step
    (.pick 0 initproc rfl rfl)
  refine ⟨_, h, rfl, rfl, fun h1 => ?_⟩
  have := (runs_on_one_cpu h).1 0 1 initproc rfl h1
  cases this

end Xv6.Sched
