import Xv6.Sched.Exclusion

/-! What a step does to the life of processes: nothing, or one of the events from `allocproc` to
`freeproc`. -/
namespace Xv6.Sched

open Proc (ProcState)
open Pc Kernel

variable {N : ℕ} {σ K : Type} {client : Client σ K} {init : σ → Prop} {s t : Kernel N σ K}
  {c : Fin N} {p q : Slot}

/-- The state of a process between `fork` and `exit`. -/
def Active (st : ProcState) : Prop := st = .sleeping ∨ st = .runnable ∨ st = .running

theorem active_of_running {st : ProcState} (h : st = .running) : Active st := Or.inr (Or.inr h)

/-- Two descriptions of a process between two events of its life. -/
structure Process.Same (a b : Process K) : Prop where
  state : b.state = a.state ∨ Active a.state ∧ Active b.state
  parent : b.parent = a.parent
  pid : b.pid = a.pid
  xstate : b.xstate = a.xstate

theorem Process.Same.refl (a : Process K) : a.Same a := ⟨Or.inl rfl, rfl, rfl, rfl⟩

theorem Process.Same.active {a b : Process K} (h : a.Same b) : Active b.state ↔ Active a.state := by
  rcases h.state with hs | ⟨ha, hb⟩
  · rw [hs]
  · exact ⟨fun _ => ha, fun _ => hb⟩

theorem Process.Same.state_iff {a b : Process K} {st : ProcState} (h : a.Same b) (hst : ¬Active st) :
    b.state = st ↔ a.state = st := by
  rcases h.state with hs | ⟨ha, hb⟩
  · rw [hs]
  · constructor
    · rintro rfl
      exact (hst hb).elim
    · rintro rfl
      exact (hst ha).elim

theorem not_active_unused : ¬Active .unused := by simp [Active]

theorem not_active_used : ¬Active .used := by simp [Active]

theorem not_active_zombie : ¬Active .zombie := by simp [Active]

def History.life (h : History) : (Slot → ℕ) × List Exit × List (Exit × Slot) :=
  (h.births, h.exits, h.waits)

inductive Fate (s t : Kernel N σ K) : Prop
  | quiet (h : ∀ q, (s.proc q).Same (t.proc q)) (hh : t.hist.life = s.hist.life)
  | alloc (c p i x k) (hpc : s.code c = .allocOne p i x) (hs : (s.proc i).state = .unused)
      (hp : t.proc = Function.update s.proc i
        { s.proc i with state := .used, pid := s.nextpid, context := k })
      (hh : t.hist.life =
        (Function.update s.hist.births i (s.hist.births i + 1), s.hist.exits, s.hist.waits))
  | forkFail (c p np x) (hpc : s.code c = .fork p np x)
      (hp : t.proc = Function.update s.proc np (s.proc np).free) (hh : t.hist.life = s.hist.life)
  | setParent (c p np pid x) (hpc : s.code c = .setParent p np pid x)
      (hp : t.proc = Function.update s.proc np { s.proc np with parent := some p })
      (hh : t.hist.life = s.hist.life)
  | setRunnable (c np pid x) (hpc : s.code c = .setRunnable np pid x)
      (hp : t.proc = Function.update s.proc np { s.proc np with state := .runnable })
      (hh : t.hist.life = s.hist.life)
  | reparent (c p status) (i : Slot) (hpc : s.code c = .reparent p status i)
      (hi : (s.proc i).parent = some p)
      (hp : t.proc = Function.update s.proc i { s.proc i with parent := some initproc })
      (hh : t.hist.life = s.hist.life) (hl : t.lock = s.lock)
      (hk : t.code c = .wakeup (.proc initproc) 0 (.reparent p status (i + 1)))
  | zombie (c p status) (hpc : s.code c = .zombie p status)
      (hp : t.proc = Function.update s.proc p { s.proc p with xstate := status, state := .zombie })
      (hh : t.hist.life = (s.hist.births,
        s.hist.exits ++ [⟨p, s.hist.births p, (s.proc p).pid, status⟩], s.hist.waits))
  | waitFree (c p i x) (hpc : s.code c = .waitOne p i x) (hs : (s.proc i).state = .zombie)
      (hp : t.proc = Function.update s.proc i (s.proc i).free)
      (hh : t.hist.life = (s.hist.births, s.hist.exits, s.hist.waits ++
        [(⟨i, s.hist.births i, (s.proc i).pid, (s.proc i).xstate⟩, p)]))

theorem Fate.of_ne (i : Slot) (hne : ∀ q, q ≠ i → t.proc q = s.proc q)
    (hi : (s.proc i).Same (t.proc i)) (hh : t.hist.life = s.hist.life) : Fate s t := by
  refine .quiet (fun q => ?_) hh
  by_cases hq : q = i
  · rwa [hq]
  · rw [hne q hq]
    exact .refl _

theorem Step.fate (hc : Control client.holds s) (hst : Step client s t) : Fate s t := by
  cases hst with
  | pick c i hpc hr =>
    refine .of_ne i (by simp +contextual) ⟨Or.inr ⟨?_, ?_⟩, ?_, ?_, ?_⟩ rfl
    all_goals simp [Active, hr]
  | switchTo c i hpc => exact .quiet (fun _ => .refl _) rfl
  | back c i hpc => exact .quiet (fun _ => .refl _) rfl
  | swtch c q k hpc =>
    refine .of_ne q (by simp +contextual) ⟨Or.inl ?_, ?_, ?_, ?_⟩ rfl
    all_goals simp
  | yielding c q k hpc =>
    have hok := hc.ok c
    rw [hpc, Ok] at hok
    have hrun : (s.proc q).state = .running := by
      simpa [hpc, expects] using hc.state c q (proc_of_agent hok.1)
    refine .of_ne q (by simp +contextual) ⟨Or.inr ⟨active_of_running hrun, ?_⟩, ?_, ?_, ?_⟩ ?_
    all_goals simp [Active]
  | sleeping c chan q k hpc =>
    have hok := hc.ok c
    rw [hpc, Ok] at hok
    have hrun : (s.proc q).state = .running := by
      simpa [hpc, expects] using hc.state c q (proc_of_agent hok.1)
    refine .of_ne q (by simp +contextual) ⟨Or.inr ⟨active_of_running hrun, ?_⟩, ?_, ?_, ?_⟩ ?_
    all_goals simp [Active]
  | tidy c q k hpc =>
    refine .of_ne q (by simp +contextual) ⟨Or.inl ?_, ?_, ?_, ?_⟩ ?_
    all_goals simp [History.life]
  | wakeOne c chan j k hpc hs hchan =>
    refine .of_ne j (by simp +contextual) ⟨Or.inr ⟨Or.inl hs, ?_⟩, ?_, ?_, ?_⟩ ?_
    all_goals simp [Active, History.life, rouse]
  | killSleeping c pid j x hpc hp hs =>
    refine .of_ne j (by simp +contextual) ⟨Or.inr ⟨Or.inl hs, ?_⟩, ?_, ?_, ?_⟩ ?_
    all_goals simp [Active, History.life, rouse]
  | killOne c pid j x hpc hp hs =>
    refine .of_ne j (by simp +contextual) ⟨Or.inl ?_, ?_, ?_, ?_⟩ ?_
    all_goals simp
  | setKilled c q x hpc =>
    refine .of_ne q (by simp +contextual) ⟨Or.inl ?_, ?_, ?_, ?_⟩ ?_
    all_goals simp [History.life]
  | allocOne c q i x hpc hs =>
    exact .alloc c q i x (.release i (.client client.start)) hpc hs
      (by simp [Kernel.birth, Kernel.setProc]) (by simp [History.life, Kernel.birth])
  | forkFail c q np x hpc =>
    exact .forkFail c q np x hpc (by simp [Kernel.setProc]) (by simp)
  | setParent c q np pid x hpc =>
    exact .setParent c q np pid x hpc (by simp [Kernel.setProc]) (by simp)
  | setRunnable c np pid x hpc =>
    exact .setRunnable c np pid x hpc (by simp [Kernel.setProc]) (by simp)
  | reparent c q status i hpc hp =>
    exact .reparent c q status i hpc hp (by simp [Kernel.setProc])
      (by simp [History.life, enterWakeup]) (by simp [enterWakeup]) (code_goto_self (by simp))
  | zombie c q status hpc =>
    exact .zombie c q status hpc (by simp [Kernel.setProc]) (by simp [History.life])
  | waitFree c q i x hpc hs =>
    exact .waitFree c q i x hpc hs (by simp [Kernel.setProc]) (by simp [History.life])
  | device d hd => exact .quiet (fun _ => .refl _) rfl
  | _ =>
    refine .quiet (fun q => ?_) (by simp [History.life, enterLock, enterSleep, enterWakeup])
    simp only [proc_goto, proc_enterLock, proc_enterSleep, proc_enterWakeup]
    exact .refl _

end Xv6.Sched
