import Xv6.Lib.System
import Xv6.Proc.Ps

/-! The process table of `kernel/proc.c` under any number of CPUs. A step is one acquisition or
release of a spin lock, one change of a process, or one `swtch`. The kernel code outside `proc.c` is
a parameter: what it may call next, and what it does to its own data. -/
namespace Xv6.Sched

open Proc (ProcState)

abbrev Slot : Type := Fin nproc

def initproc : Slot := ⟨0, by decide⟩

/-- The address given to `sleep` and `wakeup`. `wait` sleeps on its own entry of `proc[]`. -/
inductive Chan where
  | proc (p : Slot)
  | other (n : ℕ)
  deriving DecidableEq

inductive Lock where
  | wait
  | other (n : ℕ)
  deriving DecidableEq

/-- A call of kernel code outside `proc.c`, and where it goes on with the result. -/
inductive Call (K : Type) where
  | acquire (l : ℕ) (k : K)
  | release (l : ℕ) (k : K)
  | sleep (chan l : ℕ) (k : K)
  | wakeup (chan : ℕ) (k : K)
  | killed (k : Bool → K)
  | setkilled (k : K)
  | kill (pid : BitVec 32) (k : ℤ → K)
  | fork (k : ℤ → K)
  | exit (status : ℤ)
  | wait (k : ℤ → K)

/-- A call at `x` is made with the locks that it needs: `sleep` gives up the only lock that is held,
a lock is not acquired twice, and the calls that end or make a process are made without locks.
`holds` are the locks held at each place. -/
def Call.Keeps {K : Type} (holds : K → ℕ → Bool) (x : K) : Call K → Prop
  | acquire l k => holds x l = false ∧ ∀ m, holds k m = (decide (m = l) || holds x m)
  | release l k => holds k l = false ∧ ∀ m, holds x m = (decide (m = l) || holds k m)
  | sleep _ l k => ∀ m, holds x m = decide (m = l) ∧ holds k m = decide (m = l)
  | wakeup _ k => ∀ m, holds k m = holds x m
  | killed k => ∀ b m, holds (k b) m = holds x m
  | setkilled k => ∀ m, holds x m = false ∧ holds k m = false
  | kill _ k | fork k | wait k => ∀ m, holds x m = false ∧ ∀ r, holds (k r) m = false
  | exit _ => ∀ m, holds x m = false

/-- Kernel code outside `proc.c`: where a new process starts, the calls it may make, what else it
and its devices do to the data `σ`, and the locks that it holds. -/
structure Client (σ K : Type) where
  start : K
  calls : Slot → K → σ → Call K → Prop
  moves : Slot → K → σ → K → σ → Prop
  device : σ → σ → Prop
  holds : K → ℕ → Bool
  start_holds : ∀ l, holds start l = false
  calls_keeps : ∀ {p x d call}, calls p x d call → call.Keeps holds x
  moves_holds : ∀ {p x d y e}, moves p x d y e → ∀ l, holds y l = holds x l

def Client.without {σ K : Type} (client : Client σ K) (bad : K → Call K → Prop) : Client σ K :=
  { client with
    calls := fun p x d call => client.calls p x d call ∧ ¬bad x call
    calls_keeps := fun h => client.calls_keeps h.1 }

/-- What the scheduler of a CPU or the kernel thread of a process is about to do. `p` is the process
whose thread it is, and the last argument is what comes afterwards. The scheduler is `away` while a
process runs on the CPU, and the thread of a process that has exited is `dead`. -/
inductive Pc (K : Type) where
  | acquire (p : Slot) (k : Pc K)
  | release (p : Slot) (k : Pc K)
  | acquireLk (l : Lock) (k : Pc K)
  | releaseLk (l : Lock) (k : Pc K)
  | scan (i : ℕ)
  | pick (i : Slot)
  | switchTo (i : Slot)
  | back (i : Slot)
  | client (x : K)
  | yielding (p : Slot) (k : Pc K)
  | sched (p : Slot) (k : Pc K)
  | swtch (p : Slot) (k : Pc K)
  | sleeping (chan : Chan) (p : Slot) (k : Pc K)
  | tidy (p : Slot) (k : Pc K)
  | wakeup (chan : Chan) (j : ℕ) (k : Pc K)
  | wakeOne (chan : Chan) (j : Slot) (k : Pc K)
  | kill (pid : BitVec 32) (j : ℕ) (x : ℤ → K)
  | killOne (pid : BitVec 32) (j : Slot) (x : ℤ → K)
  | setKilled (p : Slot) (x : K)
  | readKilled (p : Slot) (x : Bool → K)
  | allocproc (p : Slot) (i : ℕ) (x : ℤ → K)
  | allocOne (p i : Slot) (x : ℤ → K)
  | fork (p np : Slot) (x : ℤ → K)
  | setParent (p np : Slot) (pid : BitVec 32) (x : ℤ → K)
  | setRunnable (np : Slot) (pid : BitVec 32) (x : ℤ → K)
  | reparent (p : Slot) (status : ℤ) (i : ℕ)
  | zombie (p : Slot) (status : ℤ)
  | waitScan (p : Slot) (i : ℕ) (havekids : Bool) (x : ℤ → K)
  | waitOne (p i : Slot) (x : ℤ → K)
  | waitKilled (p : Slot) (x : ℤ → K)
  | dead
  | away

/-- `struct proc`, without what `proc.c` only hands on. -/
structure Process (K : Type) where
  state : ProcState
  chan : Option Chan
  killed : Bool
  xstate : ℤ
  pid : BitVec 32
  parent : Option Slot
  context : Pc K

structure Cpu (K : Type) where
  proc : Option Slot
  context : Pc K
  pc : Pc K

/-- A process that has exited: the `n`-th in its slot. -/
structure Exit where
  slot : Slot
  n : ℕ
  pid : BitVec 32
  xstate : ℤ
  deriving DecidableEq

/-- What has happened. `since` are
the pids of the calls of `kill` that have run since the process in a slot was allocated, and
`named` says that `setkilled` has been called on it. `births` counts the processes of a slot, and
`exits` and `waits` are those that have exited and those that `wait` has returned, with the caller.
`calls` counts the calls of `sleep`, `asleep` is the one in progress, `lockers` are the processes
that have acquired its lock since, `roused` says of each call whether the process has been made
runnable since it was entered, and `owes` are the calls in progress when a call of `wakeup` began
whose lock the caller had acquired since. -/
structure History where
  since : Slot → BitVec 32 → Bool
  named : Slot → Bool
  births : Slot → ℕ
  exits : List Exit
  waits : List (Exit × Slot)
  calls : Slot → ℕ
  asleep : Slot → Option (Chan × Lock)
  lockers : Slot → Slot → Bool
  roused : Slot → ℕ → Bool
  owes : Slot → Slot → Option ℕ

/-- `thread` is where the kernel thread of each process is, or goes on when it runs again. -/
structure Kernel (N : ℕ) (σ K : Type) where
  proc : Slot → Process K
  thread : Slot → Pc K
  plock : Slot → Option (Fin N)
  lock : Lock → Option (Fin N)
  nextpid : BitVec 32
  cpu : Fin N → Cpu K
  data : σ
  hist : History

/-- The pid that a call of `kill` in progress looks for. -/
def Pc.killing {K : Type} : Pc K → Option (BitVec 32)
  | acquire _ k | release _ k | acquireLk _ k | releaseLk _ k | yielding _ k | sched _ k | swtch _ k
  | sleeping _ _ k | tidy _ k | wakeup _ _ k | wakeOne _ _ k => k.killing
  | kill pid _ _ | killOne pid _ _ => some pid
  | _ => none

/-- `freeproc`. -/
def Process.free {K : Type} (pr : Process K) : Process K :=
  { pr with pid := 0, parent := none, chan := none, killed := false, xstate := 0, state := .unused }

/-- `sleep(chan, lk)`, and then `k`. -/
def Pc.sleep {K : Type} (p : Slot) (chan : Chan) (lk : Lock) (k : Pc K) : Pc K :=
  .acquire p (.releaseLk lk (.sleeping chan p (.acquireLk lk k)))

namespace Kernel

variable {N : ℕ} {σ K : Type} (s : Kernel N σ K)

/-- The process whose code the CPU runs, if it is not in the scheduler. -/
def agent (c : Fin N) : Option Slot :=
  match (s.cpu c).pc with
  | .away => (s.cpu c).proc
  | _ => none

def code (c : Fin N) : Pc K :=
  match s.agent c with
  | some p => s.thread p
  | none => (s.cpu c).pc

def goto (c : Fin N) (k : Pc K) : Kernel N σ K :=
  match s.agent c with
  | some p => { s with thread := Function.update s.thread p k }
  | none => { s with cpu := Function.update s.cpu c { s.cpu c with pc := k } }

def setProc (p : Slot) (pr : Process K) : Kernel N σ K := { s with proc := Function.update s.proc p pr }

def myproc (c : Fin N) : Option Slot := (s.cpu c).proc

def rouse (p : Slot) : Kernel N σ K :=
  { s.setProc p { s.proc p with state := .runnable } with
    hist := { s.hist with
      roused := Function.update s.hist.roused p
        (Function.update (s.hist.roused p) (s.hist.calls p) true) } }

def enterSleep (p : Slot) (chan : Chan) (lk : Lock) : Kernel N σ K :=
  { s with hist := { s.hist with
      calls := Function.update s.hist.calls p (s.hist.calls p + 1)
      asleep := Function.update s.hist.asleep p (some (chan, lk))
      lockers := Function.update s.hist.lockers p fun _ => false } }

def enterWakeup (q : Slot) (chan : Chan) : Kernel N σ K :=
  { s with hist := { s.hist with
      owes := Function.update s.hist.owes q fun p =>
        if (s.hist.asleep p).map Prod.fst = some chan ∧ s.hist.lockers p q = true then
          some (s.hist.calls p)
        else none } }

def enterLock (c : Fin N) (l : Lock) : Kernel N σ K :=
  { s with
    lock := Function.update s.lock l (some c)
    hist := { s.hist with
      lockers := fun p q =>
        if (s.hist.asleep p).map Prod.snd = some l ∧ s.agent c = some q then true
        else s.hist.lockers p q } }

def birth (start : K) (i : Slot) : Kernel N σ K :=
  { s.setProc i { s.proc i with
      state := .used, pid := s.nextpid, context := .release i (.client start) } with
    thread := Function.update s.thread i (.release i (.client start))
    nextpid := s.nextpid + 1
    hist := { s.hist with
      since := Function.update s.hist.since i fun pid =>
        decide (∃ q, (s.thread q).killing = some pid)
      named := Function.update s.hist.named i false
      births := Function.update s.hist.births i (s.hist.births i + 1) } }

end Kernel

/-- The code of the scheduler and of `proc.c`, and the code outside. A CPU that would panic takes
no step. -/
inductive Step {N : ℕ} {σ K : Type} (client : Client σ K) : Kernel N σ K → Kernel N σ K → Prop
  -- spin locks
  | acquire {s} (c p k) (h : s.code c = .acquire p k) (hl : s.plock p = none) :
      Step client s { s.goto c k with plock := Function.update s.plock p (some c) }
  | release {s} (c p k) (h : s.code c = .release p k) (hl : s.plock p = some c) :
      Step client s { s.goto c k with plock := Function.update s.plock p none }
  | acquireLk {s} (c l k) (h : s.code c = .acquireLk l k) (hl : s.lock l = none) :
      Step client s ((s.goto c k).enterLock c l)
  | releaseLk {s} (c l k) (h : s.code c = .releaseLk l k) (hl : s.lock l = some c) :
      Step client s { s.goto c k with lock := Function.update s.lock l none }
  -- scheduler
  | scan {s} (c) (i : Slot) (h : s.code c = .scan i) :
      Step client s (s.goto c (.acquire i (.pick i)))
  | scanEnd {s} (c) (i : ℕ) (h : s.code c = .scan i) (hi : nproc ≤ i) :
      Step client s (s.goto c (.scan 0))
  | pick {s} (c i) (h : s.code c = .pick i) (hr : (s.proc i).state = .runnable) :
      Step client s { s.setProc i { s.proc i with state := .running } with
        cpu := Function.update s.cpu c { s.cpu c with proc := some i, pc := .switchTo i } }
  | pass {s} (c i) (h : s.code c = .pick i) (hr : (s.proc i).state ≠ .runnable) :
      Step client s (s.goto c (.release i (.scan (i + 1))))
  | switchTo {s} (c i) (h : s.code c = .switchTo i) :
      Step client s { s with
        cpu := Function.update s.cpu c { s.cpu c with context := .back i, pc := .away }
        thread := Function.update s.thread i (s.proc i).context }
  | back {s} (c i) (h : s.code c = .back i) :
      Step client s { s with
        cpu := Function.update s.cpu c
          { s.cpu c with proc := none, pc := .release i (.scan (i + 1)) } }
  | interrupt {s} (c i chan) (h : s.code c = .scan i) :
      Step client s (s.goto c (.wakeup (.other chan) 0 (.scan i)))
  -- sched
  | sched {s} (c p k) (h : s.code c = .sched p k) (hl : ∀ l, s.lock l ≠ some c)
      (hs : (s.proc p).state ≠ .running) :
      Step client s (s.goto c (.swtch p k))
  | swtch {s} (c p k) (h : s.code c = .swtch p k) :
      Step client s { s.setProc p { s.proc p with context := k } with
        cpu := Function.update s.cpu c { s.cpu c with pc := (s.cpu c).context }
        thread := Function.update s.thread p k }
  -- a timer interrupt, while no lock is held
  | preempt {s} (c p) (hp : s.agent c = some p) (hl : ∀ q, s.plock q ≠ some c)
      (hl' : ∀ l, s.lock l ≠ some c) :
      Step client s (s.goto c (.acquire p (.yielding p (s.thread p))))
  | yielding {s} (c p k) (h : s.code c = .yielding p k) :
      Step client s ((s.goto c (.sched p (.release p k))).setProc p
        { s.proc p with state := .runnable })
  -- sleep and wakeup
  | sleeping {s} (c chan p k) (h : s.code c = .sleeping chan p k) :
      Step client s ((s.goto c (.sched p (.tidy p k))).setProc p
        { s.proc p with chan := some chan, state := .sleeping })
  | tidy {s} (c p k) (h : s.code c = .tidy p k) :
      Step client s { (s.goto c (.release p k)).setProc p { s.proc p with chan := none } with
        hist := { s.hist with asleep := Function.update s.hist.asleep p none } }
  | wakeup {s} (c chan) (j : Slot) (k) (h : s.code c = .wakeup chan j k)
      (hj : s.myproc c ≠ some j) :
      Step client s (s.goto c (.acquire j (.wakeOne chan j k)))
  | wakeupSelf {s} (c chan) (j : Slot) (k) (h : s.code c = .wakeup chan j k)
      (hj : s.myproc c = some j) :
      Step client s (s.goto c (.wakeup chan (j + 1) k))
  | wakeupEnd {s} (c chan) (j : ℕ) (k) (h : s.code c = .wakeup chan j k) (hj : nproc ≤ j) :
      Step client s (s.goto c k)
  | wakeOne {s} (c chan j k) (h : s.code c = .wakeOne chan j k)
      (hs : (s.proc j).state = .sleeping) (hc : (s.proc j).chan = some chan) :
      Step client s ((s.goto c (.release j (.wakeup chan (j + 1) k))).rouse j)
  | wakeNone {s} (c chan j k) (h : s.code c = .wakeOne chan j k)
      (hs : ¬((s.proc j).state = .sleeping ∧ (s.proc j).chan = some chan)) :
      Step client s (s.goto c (.release j (.wakeup chan (j + 1) k)))
  -- kill, setkilled and killed
  | kill {s} (c pid) (j : Slot) (x) (h : s.code c = .kill pid j x) :
      Step client s (s.goto c (.acquire j (.killOne pid j x)))
  | killEnd {s} (c pid) (j : ℕ) (x) (h : s.code c = .kill pid j x) (hj : nproc ≤ j) :
      Step client s (s.goto c (.client (x (-1))))
  | killSleeping {s} (c pid j x) (h : s.code c = .killOne pid j x) (hp : (s.proc j).pid = pid)
      (hs : (s.proc j).state = .sleeping) :
      Step client s (((s.goto c (.release j (.client (x 0)))).setProc j
        { s.proc j with killed := true }).rouse j)
  | killOne {s} (c pid j x) (h : s.code c = .killOne pid j x) (hp : (s.proc j).pid = pid)
      (hs : (s.proc j).state ≠ .sleeping) :
      Step client s ((s.goto c (.release j (.client (x 0)))).setProc j
        { s.proc j with killed := true })
  | killNone {s} (c pid j x) (h : s.code c = .killOne pid j x) (hp : (s.proc j).pid ≠ pid) :
      Step client s (s.goto c (.release j (.kill pid (j + 1) x)))
  | setKilled {s} (c p x) (h : s.code c = .setKilled p x) :
      Step client s { (s.goto c (.release p (.client x))).setProc p
          { s.proc p with killed := true } with
        hist := { s.hist with named := Function.update s.hist.named p true } }
  | readKilled {s} (c p x) (h : s.code c = .readKilled p x) :
      Step client s (s.goto c (.release p (.client (x (s.proc p).killed))))
  -- allocproc and fork
  | allocproc {s} (c p) (i : Slot) (x) (h : s.code c = .allocproc p i x) :
      Step client s (s.goto c (.acquire i (.allocOne p i x)))
  | allocEnd {s} (c p) (i : ℕ) (x) (h : s.code c = .allocproc p i x) (hi : nproc ≤ i) :
      Step client s (s.goto c (.client (x (-1))))
  | allocUsed {s} (c p i x) (h : s.code c = .allocOne p i x) (hs : (s.proc i).state ≠ .unused) :
      Step client s (s.goto c (.release i (.allocproc p (i + 1) x)))
  | allocOne {s} (c p i x) (h : s.code c = .allocOne p i x) (hs : (s.proc i).state = .unused) :
      Step client s ((s.birth client.start i).goto c (.fork p i x))
  | forkFail {s} (c p np x) (h : s.code c = .fork p np x) :
      Step client s ((s.goto c (.release np (.client (x (-1))))).setProc np (s.proc np).free)
  | fork {s} (c p np x) (h : s.code c = .fork p np x) :
      Step client s (s.goto c (.release np (.acquireLk .wait (.setParent p np (s.proc np).pid x))))
  | setParent {s} (c p np pid x) (h : s.code c = .setParent p np pid x) :
      Step client s ((s.goto c (.releaseLk .wait (.acquire np (.setRunnable np pid x)))).setProc np
        { s.proc np with parent := some p })
  | setRunnable {s} (c np pid x) (h : s.code c = .setRunnable np pid x) :
      Step client s ((s.goto c (.release np (.client (x pid.toInt)))).setProc np
        { s.proc np with state := .runnable })
  -- exit
  | reparent {s} (c p status) (i : Slot) (h : s.code c = .reparent p status i)
      (hp : (s.proc i).parent = some p) :
      Step client s (((s.goto c (.wakeup (.proc initproc) 0 (.reparent p status (i + 1)))).setProc i
        { s.proc i with parent := some initproc }).enterWakeup p (.proc initproc))
  | reparentNone {s} (c p status) (i : Slot) (h : s.code c = .reparent p status i)
      (hp : (s.proc i).parent ≠ some p) :
      Step client s (s.goto c (.reparent p status (i + 1)))
  | exitWakeup {s} (c p status) (i : ℕ) (q) (h : s.code c = .reparent p status i)
      (hi : nproc ≤ i) (hq : (s.proc p).parent = some q) :
      Step client s ((s.goto c (.wakeup (.proc q) 0 (.acquire p (.zombie p status)))).enterWakeup p
        (.proc q))
  | zombie {s} (c p status) (h : s.code c = .zombie p status) :
      Step client s { (s.goto c (.releaseLk .wait (.sched p .dead))).setProc p
          { s.proc p with xstate := status, state := .zombie } with
        hist := { s.hist with
          exits := s.hist.exits ++ [⟨p, s.hist.births p, (s.proc p).pid, status⟩] } }
  -- wait
  | waitScan {s} (c p) (i : Slot) (kids x) (h : s.code c = .waitScan p i kids x)
      (hp : (s.proc i).parent = some p) :
      Step client s (s.goto c (.acquire i (.waitOne p i x)))
  | waitSkip {s} (c p) (i : Slot) (kids x) (h : s.code c = .waitScan p i kids x)
      (hp : (s.proc i).parent ≠ some p) :
      Step client s (s.goto c (.waitScan p (i + 1) kids x))
  | waitNone {s} (c p) (i : ℕ) (x) (h : s.code c = .waitScan p i false x) (hi : nproc ≤ i) :
      Step client s (s.goto c (.releaseLk .wait (.client (x (-1)))))
  | waitKids {s} (c p) (i : ℕ) (x) (h : s.code c = .waitScan p i true x) (hi : nproc ≤ i) :
      Step client s (s.goto c (.acquire p (.waitKilled p x)))
  | waitFree {s} (c p i x) (h : s.code c = .waitOne p i x) (hs : (s.proc i).state = .zombie) :
      Step client s { (s.goto c
          (.release i (.releaseLk .wait (.client (x (s.proc i).pid.toInt))))).setProc i
            (s.proc i).free with
        hist := { s.hist with
          waits := s.hist.waits ++
            [(⟨i, s.hist.births i, (s.proc i).pid, (s.proc i).xstate⟩, p)] } }
  | waitCopyout {s} (c p i x) (h : s.code c = .waitOne p i x)
      (hs : (s.proc i).state = .zombie) :
      Step client s (s.goto c (.release i (.releaseLk .wait (.client (x (-1))))))
  | waitMore {s} (c p i x) (h : s.code c = .waitOne p i x) (hs : (s.proc i).state ≠ .zombie) :
      Step client s (s.goto c (.release i (.waitScan p (i + 1) true x)))
  | waitKilled {s} (c p x) (h : s.code c = .waitKilled p x) (hk : (s.proc p).killed = true) :
      Step client s (s.goto c (.release p (.releaseLk .wait (.client (x (-1))))))
  | waitSleep {s} (c p x) (h : s.code c = .waitKilled p x) (hk : (s.proc p).killed = false) :
      Step client s ((s.goto c
        (.release p (.sleep p (.proc p) .wait (.waitScan p 0 false x)))).enterSleep p (.proc p)
          .wait)
  -- the code outside
  | callAcquire {s} (c p x l k) (h : s.code c = .client x) (hp : s.agent c = some p)
      (hc : client.calls p x s.data (.acquire l k)) :
      Step client s (s.goto c (.acquireLk (.other l) (.client k)))
  | callRelease {s} (c p x l k) (h : s.code c = .client x) (hp : s.agent c = some p)
      (hc : client.calls p x s.data (.release l k)) :
      Step client s (s.goto c (.releaseLk (.other l) (.client k)))
  | callSleep {s} (c p x chan l k) (h : s.code c = .client x) (hp : s.agent c = some p)
      (hc : client.calls p x s.data (.sleep chan l k)) :
      Step client s ((s.goto c (.sleep p (.other chan) (.other l) (.client k))).enterSleep p
        (.other chan) (.other l))
  | callWakeup {s} (c p x chan k) (h : s.code c = .client x) (hp : s.agent c = some p)
      (hc : client.calls p x s.data (.wakeup chan k)) :
      Step client s ((s.goto c (.wakeup (.other chan) 0 (.client k))).enterWakeup p (.other chan))
  | callKilled {s} (c p x k) (h : s.code c = .client x) (hp : s.agent c = some p)
      (hc : client.calls p x s.data (.killed k)) :
      Step client s (s.goto c (.acquire p (.readKilled p k)))
  | callSetkilled {s} (c p x k) (h : s.code c = .client x) (hp : s.agent c = some p)
      (hc : client.calls p x s.data (.setkilled k)) :
      Step client s (s.goto c (.acquire p (.setKilled p k)))
  | callKill {s} (c p x pid k) (h : s.code c = .client x) (hp : s.agent c = some p)
      (hc : client.calls p x s.data (.kill pid k)) :
      Step client s { s.goto c (.kill pid 0 k) with
        hist := { s.hist with since := fun q => Function.update (s.hist.since q) pid true } }
  | callFork {s} (c p x k) (h : s.code c = .client x) (hp : s.agent c = some p)
      (hc : client.calls p x s.data (.fork k)) :
      Step client s (s.goto c (.allocproc p 0 k))
  | callExit {s} (c p x status) (h : s.code c = .client x) (hp : s.agent c = some p)
      (hi : p ≠ initproc) (hc : client.calls p x s.data (.exit status)) :
      Step client s (s.goto c (.acquireLk .wait (.reparent p status 0)))
  | callWait {s} (c p x k) (h : s.code c = .client x) (hp : s.agent c = some p)
      (hc : client.calls p x s.data (.wait k)) :
      Step client s (s.goto c (.acquireLk .wait (.waitScan p 0 false k)))
  | move {s} (c p x y d) (h : s.code c = .client x) (hp : s.agent c = some p)
      (hm : client.moves p x s.data y d) :
      Step client s { s.goto c (.client y) with data := d }
  | device {s} (d) (hd : client.device s.data d) : Step client s { s with data := d }

/-- `userinit` has made the first process, and every CPU is in `scheduler`. -/
structure Initial {N : ℕ} {σ K : Type} (client : Client σ K) (init : σ → Prop)
    (s : Kernel N σ K) : Prop where
  first : s.proc initproc =
    ⟨.runnable, none, false, 0, 1, none, .release initproc (.client client.start)⟩
  thread : s.thread initproc = .release initproc (.client client.start)
  others : ∀ p, p ≠ initproc → (s.proc p).state = .unused ∧ (s.proc p).chan = none ∧
    (s.proc p).killed = false ∧ (s.proc p).pid = 0 ∧ (s.proc p).parent = none
  idle : ∀ p, p ≠ initproc → s.thread p = .dead
  plock : ∀ p, s.plock p = none
  lock : ∀ l, s.lock l = none
  nextpid : s.nextpid = 2
  cpu : ∀ c, (s.cpu c).proc = none ∧ (s.cpu c).pc = .scan 0
  data : init s.data
  hist : s.hist = ⟨fun _ _ => false, fun _ => false, fun _ => 0, [], [], fun _ => 0, fun _ => none,
    fun _ _ => false, fun _ _ => false, fun _ _ => none⟩

def machine (N : ℕ) {σ K : Type} (client : Client σ K) (init : σ → Prop) :
    Lib.System (Kernel N σ K) where
  init := Initial client init
  step := Step client

/-- Processes that fork, exit, wait and kill in any order. -/
def processes : Client Unit Unit where
  start := ()
  calls _ _ _ call :=
    match call with
    | .killed _ | .setkilled _ | .kill _ _ | .fork _ | .exit _ | .wait _ => True
    | _ => False
  moves _ _ _ _ _ := False
  device _ _ := False
  holds _ _ := false
  start_holds _ := rfl
  calls_keeps {p x d call} h := by cases call <;> simp_all [Call.Keeps]
  moves_holds h := h.elim

def boot (N : ℕ) {σ K : Type} (client : Client σ K) (d : σ) : Kernel N σ K where
  proc p :=
    if p = initproc then
      ⟨.runnable, none, false, 0, 1, none, .release initproc (.client client.start)⟩
    else ⟨.unused, none, false, 0, 0, none, .dead⟩
  thread p := if p = initproc then .release initproc (.client client.start) else .dead
  plock _ := none
  lock _ := none
  nextpid := 2
  cpu _ := ⟨none, .scan 0, .scan 0⟩
  data := d
  hist := ⟨fun _ _ => false, fun _ => false, fun _ => 0, [], [], fun _ => 0, fun _ => none,
    fun _ _ => false, fun _ _ => false, fun _ _ => none⟩

theorem boot_initial {N : ℕ} {σ K : Type} {client : Client σ K} {init : σ → Prop} {d : σ}
    (h : init d) : Initial client init (boot N client d) where
  first := by simp [boot]
  thread := by simp [boot]
  others p hp := by simp [boot, hp]
  idle p hp := by simp [boot, hp]
  plock _ := rfl
  lock _ := rfl
  nextpid := rfl
  cpu _ := ⟨rfl, rfl⟩
  data := h
  hist := rfl

end Xv6.Sched
