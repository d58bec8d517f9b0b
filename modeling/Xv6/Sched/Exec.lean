import Xv6.Sched.Exclusion

/-! An executable version of the steps that a CPU takes in `proc.c`, for concrete runs. Where the
source may fail for reasons that are not modelled, in `fork` and `copyout`, it succeeds. -/
namespace Xv6.Sched

open Pc

variable {N : ℕ} {σ K : Type} {client : Client σ K} {init : σ → Prop} {s t : Kernel N σ K}
  {c : Fin N} {p : Slot}

def secondproc : Slot := ⟨1, by decide⟩

namespace Kernel

/-- The next step of a CPU, unless it is in the code outside, or waits for a lock. -/
def next (start : K) (c : Fin N) (s : Kernel N σ K) : Option (Kernel N σ K) :=
  match s.code c with
  | .acquire p k =>
    if s.plock p = none then
      some { s.goto c k with plock := Function.update s.plock p (some c) }
    else none
  | .release p k =>
    if s.plock p = some c then
      some { s.goto c k with plock := Function.update s.plock p none }
    else none
  | .acquireLk l k => if s.lock l = none then some ((s.goto c k).enterLock c l) else none
  | .releaseLk l k =>
    if s.lock l = some c then
      some { s.goto c k with lock := Function.update s.lock l none }
    else none
  | .scan i =>
    some (s.goto c (if h : i < nproc then .acquire ⟨i, h⟩ (.pick ⟨i, h⟩) else .scan 0))
  | .pick i =>
    if (s.proc i).state = .runnable then
      some { s.setProc i { s.proc i with state := .running } with
        cpu := Function.update s.cpu c { s.cpu c with proc := some i, pc := .switchTo i } }
    else some (s.goto c (.release i (.scan (i + 1))))
  | .switchTo i =>
    some { s with
      cpu := Function.update s.cpu c { s.cpu c with context := .back i, pc := .away }
      thread := Function.update s.thread i (s.proc i).context }
  | .back i =>
    some { s with
      cpu := Function.update s.cpu c
        { s.cpu c with proc := none, pc := .release i (.scan (i + 1)) } }
  | .yielding p k =>
    some ((s.goto c (.sched p (.release p k))).setProc p { s.proc p with state := .runnable })
  | .sched p k => if (s.proc p).state ≠ .running then some (s.goto c (.swtch p k)) else none
  | .swtch p k =>
    some { s.setProc p { s.proc p with context := k } with
      cpu := Function.update s.cpu c { s.cpu c with pc := (s.cpu c).context }
      thread := Function.update s.thread p k }
  | .sleeping chan p k =>
    some ((s.goto c (.sched p (.tidy p k))).setProc p
      { s.proc p with chan := some chan, state := .sleeping })
  | .tidy p k =>
    some { (s.goto c (.release p k)).setProc p { s.proc p with chan := none } with
      hist := { s.hist with asleep := Function.update s.hist.asleep p none } }
  | .wakeup chan j k =>
    if h : j < nproc then
      if s.myproc c = some ⟨j, h⟩ then some (s.goto c (.wakeup chan (j + 1) k))
      else some (s.goto c (.acquire ⟨j, h⟩ (.wakeOne chan ⟨j, h⟩ k)))
    else some (s.goto c k)
  | .wakeOne chan j k =>
    if (s.proc j).state = .sleeping ∧ (s.proc j).chan = some chan then
      some ((s.goto c (.release j (.wakeup chan (j + 1) k))).rouse j)
    else some (s.goto c (.release j (.wakeup chan (j + 1) k)))
  | .kill pid j x =>
    some (s.goto c (if h : j < nproc then .acquire ⟨j, h⟩ (.killOne pid ⟨j, h⟩ x)
      else .client (x (-1))))
  | .killOne pid j x =>
    if (s.proc j).pid = pid then
      if (s.proc j).state = .sleeping then
        some (((s.goto c (.release j (.client (x 0)))).setProc j
          { s.proc j with killed := true }).rouse j)
      else some ((s.goto c (.release j (.client (x 0)))).setProc j
        { s.proc j with killed := true })
    else some (s.goto c (.release j (.kill pid (j + 1) x)))
  | .readKilled p x => some (s.goto c (.release p (.client (x (s.proc p).killed))))
  | .setKilled p x =>
    some { (s.goto c (.release p (.client x))).setProc p { s.proc p with killed := true } with
      hist := { s.hist with named := Function.update s.hist.named p true } }
  | .allocproc p i x =>
    some (s.goto c (if h : i < nproc then .acquire ⟨i, h⟩ (.allocOne p ⟨i, h⟩ x)
      else .client (x (-1))))
  | .allocOne p i x =>
    if (s.proc i).state = .unused then some ((s.birth start i).goto c (.fork p i x))
    else some (s.goto c (.release i (.allocproc p (i + 1) x)))
  | .fork p np x =>
    some (s.goto c (.release np (.acquireLk .wait (.setParent p np (s.proc np).pid x))))
  | .setParent p np pid x =>
    some ((s.goto c (.releaseLk .wait (.acquire np (.setRunnable np pid x)))).setProc np
      { s.proc np with parent := some p })
  | .setRunnable np pid x =>
    some ((s.goto c (.release np (.client (x pid.toInt)))).setProc np
      { s.proc np with state := .runnable })
  | .reparent p status i =>
    if h : i < nproc then
      if (s.proc ⟨i, h⟩).parent = some p then
        some (((s.goto c (.wakeup (.proc initproc) 0 (.reparent p status (i + 1)))).setProc ⟨i, h⟩
          { s.proc ⟨i, h⟩ with parent := some initproc }).enterWakeup p (.proc initproc))
      else some (s.goto c (.reparent p status (i + 1)))
    else
      (s.proc p).parent.map fun q =>
        (s.goto c (.wakeup (.proc q) 0 (.acquire p (.zombie p status)))).enterWakeup p (.proc q)
  | .zombie p status =>
    some { (s.goto c (.releaseLk .wait (.sched p .dead))).setProc p
        { s.proc p with xstate := status, state := .zombie } with
      hist := { s.hist with
        exits := s.hist.exits ++ [⟨p, s.hist.births p, (s.proc p).pid, status⟩] } }
  | .waitScan p i kids x =>
    if h : i < nproc then
      if (s.proc ⟨i, h⟩).parent = some p then
        some (s.goto c (.acquire ⟨i, h⟩ (.waitOne p ⟨i, h⟩ x)))
      else some (s.goto c (.waitScan p (i + 1) kids x))
    else some (s.goto c (if kids then .acquire p (.waitKilled p x)
      else .releaseLk .wait (.client (x (-1)))))
  | .waitOne p i x =>
    if (s.proc i).state = .zombie then
      some { (s.goto c (.release i (.releaseLk .wait (.client (x (s.proc i).pid.toInt))))).setProc i
          (s.proc i).free with
        hist := { s.hist with
          waits := s.hist.waits ++
            [(⟨i, s.hist.births i, (s.proc i).pid, (s.proc i).xstate⟩, p)] } }
    else some (s.goto c (.release i (.waitScan p (i + 1) true x)))
  | .waitKilled p x =>
    if (s.proc p).killed then some (s.goto c (.release p (.releaseLk .wait (.client (x (-1))))))
    else some ((s.goto c
      (.release p (.sleep p (.proc p) .wait (.waitScan p 0 false x)))).enterSleep p (.proc p) .wait)
  | .client _ | .dead | .away => none

/-- Up to `n` steps of CPU `c`. -/
def exec (start : K) (c : Fin N) : ℕ → Kernel N σ K → Kernel N σ K
  | 0, s => s
  | n + 1, s => match s.next start c with
    | some t => exec start c n t
    | none => s

/-- The process whose code outside `proc.c` the CPU is in, and where. -/
def place (s : Kernel N σ K) (c : Fin N) : Option (Slot × K) :=
  match s.agent c, s.code c with
  | some p, .client x => some (p, x)
  | _, _ => none

/-- Process `p` on CPU `c` makes a call. -/
def call (s : Kernel N σ K) (c : Fin N) (p : Slot) : Call K → Kernel N σ K
  | .acquire l k => s.goto c (.acquireLk (.other l) (.client k))
  | .release l k => s.goto c (.releaseLk (.other l) (.client k))
  | .sleep chan l k =>
    (s.goto c (.sleep p (.other chan) (.other l) (.client k))).enterSleep p (.other chan) (.other l)
  | .wakeup chan k => (s.goto c (.wakeup (.other chan) 0 (.client k))).enterWakeup p (.other chan)
  | .killed k => s.goto c (.acquire p (.readKilled p k))
  | .setkilled k => s.goto c (.acquire p (.setKilled p k))
  | .kill pid k =>
    { s.goto c (.kill pid 0 k) with
      hist := { s.hist with since := fun q => Function.update (s.hist.since q) pid true } }
  | .fork k => s.goto c (.allocproc p 0 k)
  | .exit status =>
    if p = initproc then s else s.goto c (.acquireLk .wait (.reparent p status 0))
  | .wait k => s.goto c (.acquireLk .wait (.waitScan p 0 false k))

end Kernel

open Kernel

/-- The executable step is a step of the machine. -/
theorem Control.next_step (h : Control client.holds s) (hn : s.next client.start c = some t) :
    Step client s t := by
  cases hk : s.code c with
  | acquire p k =>
    simp only [Kernel.next, hk] at hn
    split_ifs at hn with hl
    obtain rfl := Option.some.inj hn
    exact .acquire c p k hk hl
  | release p k =>
    simp only [Kernel.next, hk] at hn
    split_ifs at hn with hl
    obtain rfl := Option.some.inj hn
    exact .release c p k hk hl
  | acquireLk l k =>
    simp only [Kernel.next, hk] at hn
    split_ifs at hn with hl
    obtain rfl := Option.some.inj hn
    exact .acquireLk c l k hk hl
  | releaseLk l k =>
    simp only [Kernel.next, hk] at hn
    split_ifs at hn with hl
    obtain rfl := Option.some.inj hn
    exact .releaseLk c l k hk hl
  | scan i =>
    simp only [Kernel.next, hk] at hn
    obtain rfl := Option.some.inj hn
    split_ifs with hi
    · exact .scan c ⟨i, hi⟩ hk
    · exact .scanEnd c i hk (by omega)
  | pick i =>
    simp only [Kernel.next, hk] at hn
    split_ifs at hn with hr <;> obtain rfl := Option.some.inj hn
    · exact .pick c i hk hr
    · exact .pass c i hk hr
  | switchTo i =>
    simp only [Kernel.next, hk] at hn
    obtain rfl := Option.some.inj hn
    exact .switchTo c i hk
  | back i =>
    simp only [Kernel.next, hk] at hn
    obtain rfl := Option.some.inj hn
    exact .back c i hk
  | yielding p k =>
    simp only [Kernel.next, hk] at hn
    obtain rfl := Option.some.inj hn
    exact .yielding c p k hk
  | sched p k =>
    simp only [Kernel.next, hk] at hn
    split_ifs at hn with hr
    obtain rfl := Option.some.inj hn
    refine .sched c p k hk (fun l hl => ?_) hr
    have := (h.lock c l).mp hl
    rw [hk] at this
    cases this
  | swtch p k =>
    simp only [Kernel.next, hk] at hn
    obtain rfl := Option.some.inj hn
    exact .swtch c p k hk
  | sleeping chan p k =>
    simp only [Kernel.next, hk] at hn
    obtain rfl := Option.some.inj hn
    exact .sleeping c chan p k hk
  | tidy p k =>
    simp only [Kernel.next, hk] at hn
    obtain rfl := Option.some.inj hn
    exact .tidy c p k hk
  | wakeup chan j k =>
    simp only [Kernel.next, hk] at hn
    split_ifs at hn with hj hme <;> obtain rfl := Option.some.inj hn
    · exact .wakeupSelf c chan ⟨j, hj⟩ k hk hme
    · exact .wakeup c chan ⟨j, hj⟩ k hk hme
    · exact .wakeupEnd c chan j k hk (by omega)
  | wakeOne chan j k =>
    simp only [Kernel.next, hk] at hn
    split_ifs at hn with hs <;> obtain rfl := Option.some.inj hn
    · exact .wakeOne c chan j k hk hs.1 hs.2
    · exact .wakeNone c chan j k hk hs
  | kill pid j x =>
    simp only [Kernel.next, hk] at hn
    obtain rfl := Option.some.inj hn
    split_ifs with hj
    · exact .kill c pid ⟨j, hj⟩ x hk
    · exact .killEnd c pid j x hk (by omega)
  | killOne pid j x =>
    simp only [Kernel.next, hk] at hn
    split_ifs at hn with hp hs <;> obtain rfl := Option.some.inj hn
    · exact .killSleeping c pid j x hk hp hs
    · exact .killOne c pid j x hk hp hs
    · exact .killNone c pid j x hk hp
  | readKilled p x =>
    simp only [Kernel.next, hk] at hn
    obtain rfl := Option.some.inj hn
    exact .readKilled c p x hk
  | setKilled p x =>
    simp only [Kernel.next, hk] at hn
    obtain rfl := Option.some.inj hn
    exact .setKilled c p x hk
  | allocproc p i x =>
    simp only [Kernel.next, hk] at hn
    obtain rfl := Option.some.inj hn
    split_ifs with hi
    · exact .allocproc c p ⟨i, hi⟩ x hk
    · exact .allocEnd c p i x hk (by omega)
  | allocOne p i x =>
    simp only [Kernel.next, hk] at hn
    split_ifs at hn with hs <;> obtain rfl := Option.some.inj hn
    · exact .allocOne c p i x hk hs
    · exact .allocUsed c p i x hk hs
  | fork p np x =>
    simp only [Kernel.next, hk] at hn
    obtain rfl := Option.some.inj hn
    exact .fork c p np x hk
  | setParent p np pid x =>
    simp only [Kernel.next, hk] at hn
    obtain rfl := Option.some.inj hn
    exact .setParent c p np pid x hk
  | setRunnable np pid x =>
    simp only [Kernel.next, hk] at hn
    obtain rfl := Option.some.inj hn
    exact .setRunnable c np pid x hk
  | reparent p status i =>
    simp only [Kernel.next, hk] at hn
    split_ifs at hn with hi hp
    · obtain rfl := Option.some.inj hn
      exact .reparent c p status ⟨i, hi⟩ hk hp
    · obtain rfl := Option.some.inj hn
      exact .reparentNone c p status ⟨i, hi⟩ hk hp
    · obtain ⟨q, hq, rfl⟩ := Option.map_eq_some_iff.mp hn
      exact .exitWakeup c p status i q hk (by omega) hq
  | zombie p status =>
    simp only [Kernel.next, hk] at hn
    obtain rfl := Option.some.inj hn
    exact .zombie c p status hk
  | waitScan p i kids x =>
    simp only [Kernel.next, hk] at hn
    split_ifs at hn with hi hp hkids <;> obtain rfl := Option.some.inj hn
    · exact .waitScan c p ⟨i, hi⟩ kids x hk hp
    · exact .waitSkip c p ⟨i, hi⟩ kids x hk hp
    · subst hkids
      exact .waitKids c p i x hk (by omega)
    · obtain rfl : kids = false := by simpa using hkids
      exact .waitNone c p i x hk (by omega)
  | waitOne p i x =>
    simp only [Kernel.next, hk] at hn
    split_ifs at hn with hs <;> obtain rfl := Option.some.inj hn
    · exact .waitFree c p i x hk hs
    · exact .waitMore c p i x hk hs
  | waitKilled p x =>
    simp only [Kernel.next, hk] at hn
    split_ifs at hn with hs <;> obtain rfl := Option.some.inj hn
    · exact .waitKilled c p x hk hs
    · exact .waitSleep c p x hk (by simpa using hs)
  | client _ | dead | away =>
    simp only [Kernel.next, hk] at hn
    cases hn

/-- A concrete run: CPU `c` goes on for up to `n` steps. -/
theorem Reachable.exec (h : (machine N client init).Reachable s) (c : Fin N) (n : ℕ) :
    (machine N client init).Reachable (s.exec client.start c n) := by
  induction n generalizing s with
  | zero => exact h
  | succ n ih =>
    unfold Kernel.exec
    cases hn : s.next client.start c with
    | none => exact h
    | some t => exact ih (h.step ((reachable_control h).1.next_step hn))

theorem place_eq_some {x : K} (hp : s.place c = some (p, x)) :
    s.agent c = some p ∧ s.code c = .client x := by
  unfold Kernel.place at hp
  split at hp
  · rename_i q y hq hy
    cases hp
    exact ⟨hq, hy⟩
  · cases hp

theorem Reachable.call (h : (machine N client init).Reachable s) (c : Fin N) (p : Slot) (x : K)
    (a : Call K) (hp : s.place c = some (p, x)) (hc : client.calls p x s.data a) :
    (machine N client init).Reachable (s.call c p a) := by
  have hag := place_eq_some hp
  cases a with
  | acquire l k => exact h.step (.callAcquire c p x l k hag.2 hag.1 hc)
  | release l k => exact h.step (.callRelease c p x l k hag.2 hag.1 hc)
  | sleep chan l k => exact h.step (.callSleep c p x chan l k hag.2 hag.1 hc)
  | wakeup chan k => exact h.step (.callWakeup c p x chan k hag.2 hag.1 hc)
  | killed k => exact h.step (.callKilled c p x k hag.2 hag.1 hc)
  | setkilled k => exact h.step (.callSetkilled c p x k hag.2 hag.1 hc)
  | kill pid k => exact h.step (.callKill c p x pid k hag.2 hag.1 hc)
  | fork k => exact h.step (.callFork c p x k hag.2 hag.1 hc)
  | exit status =>
    unfold Kernel.call
    split_ifs with hi
    · exact h
    · exact h.step (.callExit c p x status hag.2 hag.1 hi hc)
  | wait k => exact h.step (.callWait c p x k hag.2 hag.1 hc)

theorem Reachable.move (h : (machine N client init).Reachable s) (c : Fin N) (p : Slot) (x y : K)
    (d : σ) (hp : s.place c = some (p, x)) (hm : client.moves p x s.data y d) :
    (machine N client init).Reachable { s.goto c (.client y) with data := d } := by
  obtain ⟨hag, hcode⟩ := place_eq_some hp
  exact h.step (.move c p x y d hcode hag hm)

-- Instances for the numerals of a machine with one or two CPUs, for use in the examples of runs.
theorem neZero_one : NeZero 1 := ⟨one_ne_zero⟩

theorem neZero_two : NeZero 2 := ⟨two_ne_zero⟩

end Xv6.Sched
