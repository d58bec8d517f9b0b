import Xv6.Sched.Machine

/-! The locks that a place in the code holds, the state of the process whose code it is, and what a
saved context goes on with. -/
namespace Xv6.Sched

open Proc (ProcState)

namespace Pc

variable {K : Type}

def holds : Pc K → Slot → Bool
  | acquire p k, q => decide (q ≠ p) && k.holds q
  | release p k, q => decide (q = p) || k.holds q
  | acquireLk _ k, q | releaseLk _ k, q | wakeup _ _ k, q => k.holds q
  | pick p, q | switchTo p, q | back p, q | yielding p _, q | sched p _, q | swtch p _, q
  | sleeping _ p _, q | tidy p _, q | wakeOne _ p _, q | killOne _ p _, q
  | setKilled p _, q | readKilled p _, q | allocOne _ p _, q | fork _ p _, q | setRunnable p _ _, q
  | zombie p _, q | waitOne _ p _, q | waitKilled p _, q => decide (q = p)
  | _, _ => false

/-- Whether another spin lock is held, with `f` for the code outside `proc.c`. -/
def holdsLk (f : K → ℕ → Bool) : Pc K → Lock → Bool
  | acquire _ k, m | release _ k, m | wakeup _ _ k, m | wakeOne _ _ k, m => k.holdsLk f m
  | acquireLk l k, m => decide (m ≠ l) && k.holdsLk f m
  | releaseLk l k, m => decide (m = l) || k.holdsLk f m
  | setParent .., m | reparent .., m | zombie .., m | waitScan .., m | waitOne .., m
  | waitKilled .., m => decide (m = .wait)
  | client x, .other n => f x n
  | readKilled _ x, .other n => f (x false) n
  | _, _ => false

/-- What follows the part of `sleep(chan, lk)` that is protected by `p->lock`. -/
inductive AfterSleep (f : K → ℕ → Bool) : Slot → Chan → Pc K → Prop
  | client (p n l x) (h : ∀ m, f x m = decide (m = l)) :
      AfterSleep f p (.other n) (.acquireLk (.other l) (.client x))
  | wait (p x) (h : ∀ r m, f (x r) m = false) :
      AfterSleep f p (.proc p) (.acquireLk .wait (.waitScan p 0 false x))

inductive AfterWakeup (f : K → ℕ → Bool) : Option Slot → Pc K → Prop
  | client {p} (x) : AfterWakeup f (some p) (.client x)
  | scan (i) : AfterWakeup f none (.scan i)
  | reparent {p} (status i) : AfterWakeup f (some p) (.reparent p status i)
  | zombie {p} (status) : AfterWakeup f (some p) (.acquire p (.zombie p status))

def runs : Pc K → Option Slot
  | switchTo p | back p => some p
  | _ => none

/-- The state in which a thread that goes on at `k` leaves its process. -/
def leaves : Pc K → ProcState → Prop
  | dead, st => st = .zombie
  | tidy .., st => st = .sleeping
  | _, st => st = .runnable

def expects : Pc K → ProcState → Prop
  | release _ k, st | acquireLk _ k, st | releaseLk _ k, st => k.expects st
  | sched _ k, st | swtch _ k, st => k.leaves st
  | back _, st => st = .runnable ∨ st = .sleeping ∨ st = .zombie
  | _, st => st = .running

/-- The channel and the lock of a call of `sleep` in which the process is still running. -/
def naps : Pc K → Option (Chan × Lock)
  | acquire _ k | release _ k | releaseLk _ k => k.naps
  | sleeping chan _ (acquireLk lk _) => some (chan, lk)
  | _ => none

/-- Process `me`, or the scheduler, can be there: the code is its own, and it acquires only locks
that it does not hold. In `sleep(chan, lk)` the lock `lk` is held up to where `p->lock` is. The locks
outside `proc.c` are acquired only there. -/
def Ok (f : K → ℕ → Bool) (me : Option Slot) : Pc K → Prop
  | acquire p k => (∀ q, k.holds q = decide (q = p)) ∧ k.expects .running ∧ k.runs = none ∧
      (∀ chan lk, k.naps = some (chan, lk) → k.holdsLk f lk = true) ∧ Ok f me k
  | release _ k => (∀ q, k.holds q = false) ∧
      (∀ chan lk, k.naps = some (chan, lk) → k.holdsLk f lk = true) ∧ Ok f me k
  | acquireLk l k => k.holdsLk f l = true ∧ (∀ q, k.holds q = false) ∧ k.naps = none ∧
      (l ≠ .wait → ∃ x, k = .client x) ∧ Ok f me k
  | releaseLk l k => k.holdsLk f l = false ∧ k.runs = none ∧
      (∀ chan lk, k.naps = some (chan, lk) → lk = l) ∧ Ok f me k
  | scan _ | pick _ | switchTo _ | back _ => me = none
  | reparent p _ _ | zombie p _ => me = some p
  | setKilled p x => me = some p ∧ ∀ m, f x m = false
  | readKilled p x => me = some p ∧ ∀ m, f (x true) m = f (x false) m
  | allocproc p _ x | allocOne p _ x | fork p _ x | setParent p _ _ x | waitScan p _ _ x
  | waitOne p _ x | waitKilled p x => me = some p ∧ ∀ r m, f (x r) m = false
  | client _ => me.isSome = true
  | kill _ _ x | killOne _ _ x | setRunnable _ _ x => me.isSome = true ∧ ∀ r m, f (x r) m = false
  | yielding p k => me = some p ∧ (∀ q, k.holds q = false) ∧ (∀ m, k.holdsLk f m = false) ∧
      k.expects .running ∧ k.naps = none ∧ Ok f me k
  | sched p k | swtch p k => me = some p ∧
      (k = dead ∨ (∀ q, k.holds q = decide (q = p)) ∧ (∀ m, k.holdsLk f m = false) ∧
        k.expects .running ∧ k.naps = none ∧ Ok f me k)
  | sleeping chan p k => me = some p ∧ AfterSleep f p chan k
  | tidy p k => me = some p ∧ ∃ chan, AfterSleep f p chan k
  | wakeup _ _ k => AfterWakeup f me k
  | wakeOne _ j k => AfterWakeup f me k ∧ me ≠ some j
  | dead | away => False

/-- What the context of process `p` goes on with. -/
def Resumes (f : K → ℕ → Bool) (p : Slot) (k : Pc K) : Prop :=
  (∀ q, k.holds q = decide (q = p)) ∧ (∀ m, k.holdsLk f m = false) ∧ k.expects .running ∧
    k.naps = none ∧ k.Ok f (some p)

end Pc

open Pc

variable {N : ℕ} {σ K : Type} {s t : Kernel N σ K} {c d : Fin N} {p : Slot}
  {f : K → ℕ → Bool} {me : Option Slot} {k k' : Pc K} {chan : Chan}

@[simp] theorem Pc.holdsLk_readKilled (x : Bool → K) (m : Lock) :
    (Pc.readKilled p x).holdsLk f m = (Pc.client (x false)).holdsLk f m := by
  cases m <;> rfl

theorem Pc.AfterSleep.ok (h : AfterSleep f p chan k) :
    k.Ok f (some p) ∧ (∀ q, k.holds q = false) ∧ (∀ m, k.holdsLk f m = false) ∧
      k.expects .running ∧ k.naps = none := by
  cases h with
  | client n l x h =>
    refine ⟨by simp [Ok, holds, holdsLk, naps, h], by simp [holds], fun m => ?_, rfl, rfl⟩
    cases m with
    | wait => simp [holdsLk]
    | other n => simp [holdsLk, h]
  | wait x h =>
    exact ⟨by simp [Ok, holds, holdsLk, naps, h], by simp [holds], fun m => by simp [holdsLk], rfl, rfl⟩

theorem Pc.AfterWakeup.ok (h : AfterWakeup f me k) :
    k.Ok f me ∧ (∀ q, k.holds q = false) ∧ k.expects .running ∧ k.runs = none ∧ k.naps = none := by
  cases h with
  | client x => simp [Ok, holds, expects, runs, naps]
  | scan i => simp [Ok, holds, expects, runs, naps]
  | reparent status i => simp [Ok, holds, expects, runs, naps]
  | zombie status => simp [Ok, holds, expects, runs, naps]

theorem Pc.Ok.ne_away (h : k.Ok f me) : k ≠ .away := by
  rintro rfl
  exact h

theorem Pc.leaves_cases {st : ProcState} (h : k.leaves st) :
    st = .runnable ∨ st = .sleeping ∨ st = .zombie := by
  unfold leaves at h
  split at h
  · exact Or.inr (Or.inr h)
  · exact Or.inr (Or.inl h)
  · exact Or.inl h

theorem Pc.holds_of_expects {q : Slot} {st : ProcState} (hok : k.Ok f (some q)) (he : k.expects st)
    (hst : st ≠ .running) : k.holds q = true := by
  induction k with
  | release p k ih =>
    rw [Ok] at hok
    exact absurd (ih hok.2.2 he) (by simp [hok.1 q])
  | acquireLk l k ih =>
    rw [Ok] at hok
    exact absurd (ih hok.2.2.2.2 he) (by simp [hok.2.1 q])
  | releaseLk l k ih =>
    rw [Ok] at hok
    exact ih hok.2.2.2 he
  | sched p k _ | swtch p k _ =>
    rw [Ok] at hok
    simp [holds, Option.some.inj hok.1]
  | back p => cases hok
  | _ => exact absurd he hst

theorem Pc.holds_of_naps {lk : Lock} (hok : k.Ok f (some p)) (h : k.naps = some (chan, lk)) :
    k.holdsLk f lk = true ∨ k.holds p = true := by
  cases k with
  | acquire q k => exact Or.inl (hok.2.2.2.1 chan lk h)
  | release q k => exact Or.inl (hok.2.1 chan lk h)
  | releaseLk l k =>
    obtain rfl := hok.2.2.1 chan lk h
    exact Or.inl (by simp [holdsLk])
  | sleeping chan' q k =>
    obtain rfl : p = q := Option.some.inj hok.1
    exact Or.inr (by simp [holds])
  | _ => cases h

namespace Kernel

theorem agent_congr (h : t.cpu = s.cpu) : t.agent = s.agent := by
  funext c
  simp [agent, h]

theorem code_congr (h : t.cpu = s.cpu) (hth : t.thread = s.thread) : t.code = s.code := by
  funext c
  simp [code, agent_congr h, h, hth]

theorem agent_of_away (h : (s.cpu c).pc = .away) : s.agent c = (s.cpu c).proc := by
  simp [agent, h]

theorem agent_of_ne_away (h : (s.cpu c).pc ≠ .away) : s.agent c = none := by
  unfold agent
  split
  · exact absurd ‹_› h
  · rfl

theorem away_of_agent (h : s.agent c = some p) : (s.cpu c).pc = .away := by
  by_contra hne
  rw [agent_of_ne_away hne] at h
  cases h

theorem proc_of_agent (h : s.agent c = some p) : (s.cpu c).proc = some p := by
  rwa [← agent_of_away (away_of_agent h)]

theorem code_of_agent (h : s.agent c = some p) : s.code c = s.thread p := by
  simp [code, h]

theorem code_of_scheduler (h : s.agent c = none) : s.code c = (s.cpu c).pc := by
  simp [code, h]

@[simp] theorem cpu_goto_proc (s : Kernel N σ K) (c d : Fin N) (k : Pc K) :
    ((s.goto c k).cpu d).proc = (s.cpu d).proc := by
  unfold goto
  split
  · rfl
  · by_cases hd : d = c
    · subst hd
      simp
    · simp [hd]

@[simp] theorem cpu_goto_context (s : Kernel N σ K) (c d : Fin N) (k : Pc K) :
    ((s.goto c k).cpu d).context = (s.cpu d).context := by
  unfold goto
  split
  · rfl
  · by_cases hd : d = c
    · subst hd
      simp
    · simp [hd]

theorem cpu_goto_of_ne (hd : d ≠ c) : (s.goto c k).cpu d = s.cpu d := by
  unfold goto
  split
  · rfl
  · simp [hd]

theorem agent_goto (hk : k ≠ .away) (d : Fin N) : (s.goto c k).agent d = s.agent d := by
  unfold goto
  cases ha : s.agent c with
  | some p => rfl
  | none =>
    by_cases hd : d = c
    · subst hd
      rw [ha]
      apply agent_of_ne_away
      simpa using hk
    · simp [agent, hd]

theorem code_goto_self (hk : k ≠ .away) : (s.goto c k).code c = k := by
  unfold code
  rw [agent_goto hk]
  cases ha : s.agent c with
  | some p => simp [goto, ha]
  | none => simp [goto, ha]

@[simp] theorem proc_goto (s : Kernel N σ K) (c : Fin N) (k : Pc K) : (s.goto c k).proc = s.proc := by
  unfold goto
  split <;> rfl

@[simp] theorem plock_goto (s : Kernel N σ K) (c : Fin N) (k : Pc K) :
    (s.goto c k).plock = s.plock := by
  unfold goto
  split <;> rfl

@[simp] theorem lock_goto (s : Kernel N σ K) (c : Fin N) (k : Pc K) : (s.goto c k).lock = s.lock := by
  unfold goto
  split <;> rfl

@[simp] theorem hist_goto (s : Kernel N σ K) (c : Fin N) (k : Pc K) : (s.goto c k).hist = s.hist := by
  unfold goto
  split <;> rfl

@[simp] theorem data_goto (s : Kernel N σ K) (c : Fin N) (k : Pc K) : (s.goto c k).data = s.data := by
  unfold goto
  split <;> rfl

theorem thread_goto (s : Kernel N σ K) (c : Fin N) (k : Pc K) (q : Slot) :
    (s.goto c k).thread q = if s.agent c = some q then k else s.thread q := by
  unfold goto
  split
  · rename_i r hr
    by_cases hq : q = r
    · simp [hq, hr]
    · simp [hq, Ne.symm hq, hr]
  · rename_i hr
    simp [hr]

theorem thread_goto_of_ne (h : s.agent c ≠ some p) : (s.goto c k).thread p = s.thread p := by
  rw [thread_goto, if_neg h]

@[simp] theorem proc_setProc (s : Kernel N σ K) (p q : Slot) (r : Process K) :
    (s.setProc p r).proc q = if q = p then r else s.proc q := by
  simp [setProc, Function.update_apply]

@[simp] theorem cpu_setProc (s : Kernel N σ K) (p : Slot) (r : Process K) :
    (s.setProc p r).cpu = s.cpu := rfl

@[simp] theorem thread_setProc (s : Kernel N σ K) (p : Slot) (r : Process K) :
    (s.setProc p r).thread = s.thread := rfl

@[simp] theorem plock_setProc (s : Kernel N σ K) (p : Slot) (r : Process K) :
    (s.setProc p r).plock = s.plock := rfl

@[simp] theorem lock_setProc (s : Kernel N σ K) (p : Slot) (r : Process K) :
    (s.setProc p r).lock = s.lock := rfl

@[simp] theorem data_setProc (s : Kernel N σ K) (p : Slot) (r : Process K) :
    (s.setProc p r).data = s.data := rfl

@[simp] theorem hist_setProc (s : Kernel N σ K) (p : Slot) (r : Process K) :
    (s.setProc p r).hist = s.hist := rfl

@[simp] theorem agent_setProc (s : Kernel N σ K) (p : Slot) (r : Process K) (c : Fin N) :
    (s.setProc p r).agent c = s.agent c := rfl

@[simp] theorem code_setProc (s : Kernel N σ K) (p : Slot) (r : Process K) (c : Fin N) :
    (s.setProc p r).code c = s.code c := rfl

@[simp] theorem proc_enterSleep (s : Kernel N σ K) (p : Slot) (chan : Chan) (lk : Lock) :
    (s.enterSleep p chan lk).proc = s.proc := rfl

@[simp] theorem proc_enterWakeup (s : Kernel N σ K) (p : Slot) (chan : Chan) :
    (s.enterWakeup p chan).proc = s.proc := rfl

theorem hist_enterWakeup_congr (h : t.hist = s.hist) (p : Slot) (chan : Chan) :
    (t.enterWakeup p chan).hist = (s.enterWakeup p chan).hist := by
  unfold enterWakeup
  rw [h]

@[simp] theorem proc_enterLock (s : Kernel N σ K) (c : Fin N) (l : Lock) :
    (s.enterLock c l).proc = s.proc := rfl

@[simp] theorem proc_rouse (s : Kernel N σ K) (p q : Slot) :
    (s.rouse p).proc q = if q = p then { s.proc p with state := .runnable } else s.proc q := by
  simp [rouse]

end Kernel

open Kernel

/-- What holds of the CPUs, the locks and the processes. -/
structure Control (f : K → ℕ → Bool) (s : Kernel N σ K) : Prop where
  ok : ∀ c, (s.code c).Ok f (s.agent c)
  plock : ∀ c q, s.plock q = some c ↔ (s.code c).holds q = true
  lock : ∀ c m, s.lock m = some c ↔ (s.code c).holdsLk f m = true
  proc : ∀ c, s.agent c = none → (s.cpu c).proc = (s.cpu c).pc.runs
  state : ∀ c p, (s.cpu c).proc = some p → (s.code c).expects (s.proc p).state
  unique : ∀ c d p, (s.cpu c).proc = some p → (s.cpu d).proc = some p → c = d
  running : ∀ p, (s.proc p).state = .running → ∃ c, (s.cpu c).proc = some p
  context : ∀ p, (∀ c, s.agent c ≠ some p) → (s.proc p).state ≠ .unused →
    (s.proc p).state ≠ .zombie → Resumes f p (s.thread p) ∧ (s.proc p).context = s.thread p
  back : ∀ c p, s.agent c = some p → (s.cpu c).context = .back p

/-- From `k` to `k'` no lock changes hands. -/
structure Pc.Moves (f : K → ℕ → Bool) (me : Option Slot) (k k' : Pc K) : Prop where
  ok : k'.Ok f me
  holds : ∀ q, k'.holds q = k.holds q
  lock : ∀ m, k'.holdsLk f m = k.holdsLk f m
  runs : k'.runs = k.runs

namespace Control

theorem congr (h : Control f s) (hproc : t.proc = s.proc) (hth : t.thread = s.thread)
    (hplock : t.plock = s.plock) (hlock : t.lock = s.lock) (hcpu : t.cpu = s.cpu) : Control f t := by
  have hagent : t.agent = s.agent := agent_congr hcpu
  have hcode : t.code = s.code := code_congr hcpu hth
  constructor
  · rw [hcode, hagent]
    exact h.ok
  · rw [hcode, hplock]
    exact h.plock
  · rw [hcode, hlock]
    exact h.lock
  · rw [hagent, hcpu]
    exact h.proc
  · rw [hcode, hcpu, hproc]
    exact h.state
  · rw [hcpu]
    exact h.unique
  · rw [hcpu, hproc]
    exact h.running
  · rw [hagent, hproc, hth]
    exact h.context
  · rw [hagent, hcpu]
    exact h.back

theorem agent_unique (h : Control f s) (hc : s.agent c = some p) (hd : s.agent d = some p) : c = d :=
  h.unique c d p (proc_of_agent hc) (proc_of_agent hd)

theorem code_goto (h : Control f s) (hk : k ≠ .away) (d : Fin N) :
    (s.goto c k).code d = if d = c then k else s.code d := by
  split_ifs with hd
  · subst hd
    exact code_goto_self hk
  · unfold code
    rw [agent_goto hk]
    cases ha : s.agent d with
    | some p =>
      apply thread_goto_of_ne
      intro hc
      exact hd (h.agent_unique ha hc)
    | none => rw [cpu_goto_of_ne hd]

theorem update (h : Control f s) {r : Process K} (plock : Slot → Option (Fin N))
    (lock : Lock → Option (Fin N)) (hok : k.Ok f (s.agent c))
    (hh : ∀ d q, plock q = some d ↔ (if d = c then k.holds q else (s.code d).holds q) = true)
    (hw : ∀ d m, lock m = some d ↔
      (if d = c then k.holdsLk f m else (s.code d).holdsLk f m) = true)
    (hruns : k.runs = (s.code c).runs)
    (hme : ∀ q, (s.cpu c).proc = some q → k.expects (if q = p then r else s.proc q).state)
    (hother : ∀ d, d ≠ c → (s.cpu d).proc = some p → (s.code d).expects r.state)
    (hrun : r.state = .running → ∃ d, (s.cpu d).proc = some p)
    (hctx : (∀ d, s.agent d ≠ some p) → r.state ≠ .unused → r.state ≠ .zombie →
      Resumes f p (s.thread p) ∧ r.context = s.thread p) :
    Control f { (s.goto c k).setProc p r with plock := plock, lock := lock } := by
  have hk := hok.ne_away
  have hagent : ∀ d, ({ (s.goto c k).setProc p r with plock := plock, lock := lock } :
      Kernel N σ K).agent d = s.agent d := agent_goto hk
  have hcode : ∀ d, ({ (s.goto c k).setProc p r with plock := plock, lock := lock } :
      Kernel N σ K).code d = if d = c then k else s.code d := h.code_goto hk
  constructor
  · intro d
    rw [hcode, hagent]
    split_ifs with hd
    · subst hd
      exact hok
    · exact h.ok d
  · intro d q
    rw [hcode]
    refine (hh d q).trans ?_
    split_ifs <;> rfl
  · intro d m
    rw [hcode]
    refine (hw d m).trans ?_
    split_ifs <;> rfl
  · intro d hd
    rw [hagent] at hd
    simp only [cpu_setProc, cpu_goto_proc]
    rw [h.proc d hd]
    by_cases hdc : d = c
    · subst hdc
      rw [code_of_scheduler hd] at hruns
      simp [goto, hd, hruns]
    · rw [cpu_goto_of_ne hdc]
  · intro d q hq
    rw [hcode]
    simp only [cpu_setProc, cpu_goto_proc, proc_setProc, proc_goto] at hq ⊢
    split_ifs with hd hqp hqp
    · subst hd hqp
      simpa using hme _ hq
    · subst hd
      simpa [hqp] using hme _ hq
    · subst hqp
      exact hother d hd hq
    · exact h.state d q hq
  · intro d d' q hd hd'
    simp only [cpu_setProc, cpu_goto_proc] at hd hd'
    exact h.unique d d' q hd hd'
  · intro q hq
    simp only [cpu_setProc, cpu_goto_proc, proc_setProc, proc_goto] at hq ⊢
    split_ifs at hq with hqp
    · subst hqp
      exact hrun hq
    · exact h.running q hq
  · intro q hq
    simp only [hagent] at hq
    simp only [proc_setProc, proc_goto, thread_setProc]
    rw [thread_goto_of_ne (hq c)]
    split_ifs with hqp
    · subst hqp
      exact hctx hq
    · exact h.context q hq
  · intro d q hq
    rw [hagent] at hq
    simp only [cpu_setProc, cpu_goto_context]
    exact h.back d q hq

theorem modify (h : Control f s) {r : Process K} (hm : (s.code c).Moves f (s.agent c) k)
    (hme : ∀ q, (s.cpu c).proc = some q → k.expects (if q = p then r else s.proc q).state)
    (hother : ∀ d, d ≠ c → (s.cpu d).proc = some p → (s.code d).expects r.state)
    (hrun : r.state = .running → ∃ d, (s.cpu d).proc = some p)
    (hctx : (∀ d, s.agent d ≠ some p) → r.state ≠ .unused → r.state ≠ .zombie →
      Resumes f p (s.thread p) ∧ r.context = s.thread p) :
    Control f ((s.goto c k).setProc p r) := by
  have := h.update s.plock s.lock hm.ok (fun d q => ?_) (fun d m => ?_) hm.runs hme hother hrun hctx
  · exact this.congr rfl rfl (by simp) (by simp) rfl
  · rw [h.plock d q]
    split_ifs with hd
    · rw [hd, hm.holds]
    · rfl
  · rw [h.lock d m]
    split_ifs with hd
    · rw [hd, hm.lock]
    · rfl

theorem modify_same (h : Control f s) {r : Process K} (hm : (s.code c).Moves f (s.agent c) k)
    (he : ∀ st, (s.code c).expects st → k.expects st) (hs : r.state = (s.proc p).state)
    (hc : r.context = (s.proc p).context) : Control f ((s.goto c k).setProc p r) := by
  apply h.modify hm
  · intro q hq
    apply he
    split_ifs with hqp
    · subst hqp
      rw [hs]
      exact h.state c _ hq
    · exact h.state c q hq
  · intro d _ hd
    rw [hs]
    exact h.state d p hd
  · intro hr
    rw [hs] at hr
    exact h.running p hr
  · intro hp h1 h2
    rw [hs] at h1 h2
    rw [hc]
    exact h.context p hp h1 h2

theorem relock (h : Control f s) (plock : Slot → Option (Fin N)) (lock : Lock → Option (Fin N))
    (hok : k.Ok f (s.agent c))
    (hh : ∀ d q, plock q = some d ↔ (if d = c then k.holds q else (s.code d).holds q) = true)
    (hw : ∀ d m, lock m = some d ↔
      (if d = c then k.holdsLk f m else (s.code d).holdsLk f m) = true)
    (hruns : k.runs = (s.code c).runs) (he : ∀ st, (s.code c).expects st → k.expects st) :
    Control f { s.goto c k with plock := plock, lock := lock } := by
  have := h.update (p := initproc) (r := s.proc initproc) plock lock hok hh hw hruns ?_ ?_
    (h.running initproc) (h.context initproc)
  · refine this.congr ?_ rfl rfl rfl rfl
    simp [setProc]
  · intro q hq
    apply he
    split_ifs with hqp
    · rw [← hqp]
      exact h.state c q hq
    · exact h.state c q hq
  · intro d _ hd
    exact h.state d _ hd

theorem move (h : Control f s) (hpc : s.code c = k') (hm : k'.Moves f (s.agent c) k)
    (he : ∀ st, k'.expects st → k.expects st) : Control f (s.goto c k) := by
  subst hpc
  have := h.modify_same (p := initproc) (r := s.proc initproc) hm he rfl rfl
  refine this.congr ?_ rfl rfl rfl rfl
  simp [setProc]

theorem modify_me (h : Control f s) {r : Process K} (hm : (s.code c).Moves f (some p) k)
    (hp : s.agent c = some p) (hk : k.expects r.state) :
    Control f ((s.goto c k).setProc p r) := by
  rw [← hp] at hm
  refine h.modify hm ?_ ?_ (fun _ => ⟨c, proc_of_agent hp⟩) fun hoff => absurd hp (hoff c)
  · intro q hq
    rwa [if_pos (Option.some.inj (hq.symm.trans (proc_of_agent hp)))]
  · intro d hd hdp
    exact absurd (h.unique d c p hdp (proc_of_agent hp)) hd

theorem off_cpu (h : Control f s) {q : Slot} (hact : ∀ st, (s.code c).expects st → st = .running)
    (hc : (s.code c).holds q = true) (hs : (s.proc q).state ≠ .running) (d : Fin N) :
    (s.cpu d).proc ≠ some q := by
  intro hd
  have hst := h.state d q hd
  have hdl : (s.code d).holds q = true := by
    have hok := h.ok d
    cases ha : s.agent d with
    | some p =>
      obtain rfl : p = q := Option.some.inj ((proc_of_agent ha).symm.trans hd)
      rw [ha] at hok
      exact holds_of_expects hok hst hs
    | none =>
      have hr := h.proc d ha
      rw [hd, ← code_of_scheduler ha] at hr
      cases hk : s.code d <;> rw [hk] at hr hst <;>
        simp only [runs, reduceCtorEq, Option.some.injEq] at hr
      · exact absurd hst hs
      · simp [holds, hr]
  have hlc := (h.plock c q).mpr hc
  have hld := (h.plock d q).mpr hdl
  obtain rfl : c = d := Option.some.inj (hlc.symm.trans hld)
  exact hs (hact _ hst)

theorem modify_other (h : Control f s) {r : Process K} (hm : (s.code c).Moves f (s.agent c) k)
    (hact : ∀ st, (s.code c).expects st → st = .running) (hk : k.expects .running)
    (hc : (s.code c).holds p = true) (hs : (s.proc p).state ≠ .running) (hr : r.state ≠ .running)
    (hctx : r.state ≠ .unused → r.state ≠ .zombie →
      (s.proc p).state ≠ .unused ∧ (s.proc p).state ≠ .zombie ∧ r.context = (s.proc p).context) :
    Control f ((s.goto c k).setProc p r) := by
  have hoff := h.off_cpu hact hc hs
  refine h.modify hm ?_ (fun d _ hd => absurd hd (hoff d)) (fun hr' => absurd hr' hr) ?_
  · intro q hq
    have hqp : q ≠ p := by
      rintro rfl
      exact hoff c hq
    rw [if_neg hqp, hact _ (h.state c q hq)]
    exact hk
  · intro hp h1 h2
    obtain ⟨h3, h4, hc'⟩ := hctx h1 h2
    rw [hc']
    exact h.context p hp h3 h4

end Control

end Xv6.Sched
