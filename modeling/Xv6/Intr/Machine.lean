import Xv6.Lib.System

/-! Interrupts and spin locks: `push_off`, `pop_off`, `acquire` and `release` of `kernel/spinlock.c`,
with `sched` and `scheduler` of `kernel/proc.c` and the traps in between. A step is a statement that
reads or changes the interrupt state, or a `swtch`. -/
namespace Xv6.Intr

inductive Thread (P N : ℕ) where
  | proc (p : Fin P)
  | sched (c : Fin N)
  deriving DecidableEq

inductive Lock (P : ℕ) where
  | proc (p : Fin P)
  | other (n : ℕ)
  deriving DecidableEq

/-- Where a thread is. `l` is the lock that `push_off` is called for, if it is called by `acquire`. -/
inductive Pc (P : ℕ) where
  /-- Between calls. -/
  | run
  /-- Before `int old = intr_get()`. -/
  | pushGet (l : Option (Lock P))
  /-- Before `intr_off()`. -/
  | pushOff (old : Bool) (l : Option (Lock P))
  /-- Before `mycpu()->noff` is looked at. -/
  | pushCount (old : Bool) (l : Option (Lock P))
  /-- In the loop of `acquire`. -/
  | spin (l : Lock P)
  /-- At the start of `pop_off`. -/
  | popCheck
  /-- Before `if(c->noff == 0 && c->intena)`. -/
  | popEnable
  /-- In `sched`, before `swtch`, with the local variable `intena`. -/
  | switchOut (intena : Bool)
  /-- In `sched`, after `swtch`. -/
  | resume (intena : Bool)
  /-- At the start of `forkret`. -/
  | start
  /-- In the `swtch` of `scheduler`. -/
  | away

/-- A thread: the locks and the calls of `push_off` that are charged to it, the places where it was
interrupted, and, if it made the first of the current calls of `push_off`, whether interrupts were
enabled then. -/
structure Th (P : ℕ) where
  pc : Pc P
  held : List (Lock P)
  bare : ℕ
  traps : List (Pc P)
  outer : Option Bool

/-- `struct cpu`, with the interrupt enable bit and the thread that runs. -/
structure Cpu (P N : ℕ) where
  intr : Bool
  noff : ℕ
  intena : Bool
  running : Thread P N

structure State (P N : ℕ) where
  cpu : Fin N → Cpu P N
  thread : Thread P N → Th P
  lock : Lock P → Option (Fin N)

variable {P N : ℕ}

/-- A `push_off` that belongs to a lock which is not held yet or not held any more. -/
def Pc.pending : Pc P → ℕ
  | spin _ | popCheck => 1
  | _ => 0

/-- How many locks and calls of `push_off` are charged to the thread. -/
def Th.charge (t : Th P) : ℕ := t.held.length + t.bare + t.pc.pending

namespace State

variable (s : State P N)

def cur (c : Fin N) : Th P := s.thread (s.cpu c).running

def put (c : Fin N) (x : Cpu P N) (t : Th P) : State P N :=
  { s with
    cpu := Function.update s.cpu c x
    thread := Function.update s.thread (s.cpu c).running t }

def goto (c : Fin N) (pc : Pc P) : State P N := s.put c (s.cpu c) { s.cur c with pc := pc }

/-- No CPU runs process `p`, so that its thread is where it called `swtch`, or new. -/
def Parked (p : Fin P) : Prop := ∀ c, (s.cpu c).running ≠ .proc p

end State

def Pc.pushed : Option (Lock P) → Pc P
  | none => run
  | some l => spin l

inductive Step (c : Fin N) : State P N → State P N → Prop
  -- push_off and acquire
  | push {s} (l) (h : (s.cur c).pc = .run) : Step c s (s.goto c (.pushGet l))
  | intrGet {s} (l) (h : (s.cur c).pc = .pushGet l) :
      Step c s (s.goto c (.pushOff (s.cpu c).intr l))
  | pushOff {s} (old l) (h : (s.cur c).pc = .pushOff old l) :
      Step c s (s.put c { s.cpu c with intr := false } { s.cur c with pc := .pushCount old l })
  | pushCount {s} (old l) (h : (s.cur c).pc = .pushCount old l) :
      Step c s (s.put c
        { s.cpu c with
          intena := if (s.cpu c).noff = 0 then old else (s.cpu c).intena
          noff := (s.cpu c).noff + 1 }
        { s.cur c with
          pc := .pushed l
          bare := if l = none then (s.cur c).bare + 1 else (s.cur c).bare
          outer := if (s.cpu c).noff = 0 then some old else (s.cur c).outer })
  | acquire {s} (l) (h : (s.cur c).pc = .spin l) (hl : s.lock l = none) :
      Step c s { s.put c (s.cpu c) { s.cur c with pc := .run, held := l :: (s.cur c).held } with
        lock := Function.update s.lock l (some c) }
  -- release and pop_off
  | release {s} (l) (h : (s.cur c).pc = .run) (hm : l ∈ (s.cur c).held) (hl : s.lock l = some c) :
      Step c s
        { s.put c (s.cpu c) { s.cur c with pc := .popCheck, held := (s.cur c).held.erase l } with
          lock := Function.update s.lock l none }
  | popOff {s} (h : (s.cur c).pc = .run) (hb : 0 < (s.cur c).bare) :
      Step c s (s.put c (s.cpu c) { s.cur c with pc := .popCheck, bare := (s.cur c).bare - 1 })
  | popCheck {s} (h : (s.cur c).pc = .popCheck) (hi : (s.cpu c).intr = false)
      (hn : 1 ≤ (s.cpu c).noff) :
      Step c s (s.put c { s.cpu c with noff := (s.cpu c).noff - 1 }
        { s.cur c with pc := .popEnable })
  | popEnable {s} (h : (s.cur c).pc = .popEnable) :
      Step c s (s.put c
        { s.cpu c with
          intr := if (s.cpu c).noff = 0 ∧ (s.cpu c).intena = true then true else (s.cpu c).intr }
        { s.cur c with
          pc := .run, outer := if (s.cpu c).noff = 0 then none else (s.cur c).outer })
  -- interrupts are enabled only by code that holds no lock
  | intrOn {s} (h : (s.cur c).pc = .run) (hc : (s.cur c).charge = 0) :
      Step c s (s.put c { s.cpu c with intr := true } (s.cur c))
  | intrOff {s} (h : (s.cur c).pc = .run) :
      Step c s (s.put c { s.cpu c with intr := false } (s.cur c))
  -- an interrupt, and the return from its handler
  | trap {s} (h : (s.cpu c).intr = true) :
      Step c s (s.put c { s.cpu c with intr := false }
        { s.cur c with pc := .run, traps := (s.cur c).pc :: (s.cur c).traps })
  | sret {s} (pc pcs) (h : (s.cur c).pc = .run) (hc : (s.cur c).charge = 0)
      (ht : (s.cur c).traps = pc :: pcs) :
      Step c s (s.put c { s.cpu c with intr := true } { s.cur c with pc := pc, traps := pcs })
  -- sched
  | sched {s} (p) (hr : (s.cpu c).running = .proc p) (h : (s.cur c).pc = .run)
      (hl : (s.cur c).held = [.proc p]) (hb : (s.cur c).bare = 0) :
      Step c s (s.goto c (.switchOut (s.cpu c).intena))
  | swtch {s} (p b) (hr : (s.cpu c).running = .proc p) (h : (s.cur c).pc = .switchOut b) :
      Step c s { s with
        cpu := Function.update s.cpu c { s.cpu c with running := .sched c }
        thread := Function.update
          (Function.update s.thread (.proc p) { s.cur c with pc := .resume b, held := [] })
          (.sched c) { s.thread (.sched c) with pc := .run, held := [.proc p] } }
  | restore {s} (b) (h : (s.cur c).pc = .resume b) :
      Step c s (s.put c { s.cpu c with intena := b } { s.cur c with pc := .run })
  | forkret {s} (h : (s.cur c).pc = .start) : Step c s (s.goto c .run)
  -- scheduler has acquired the lock of a process that can run
  | switchTo {s} (p) (hr : (s.cpu c).running = .sched c) (h : (s.cur c).pc = .run)
      (hl : (s.cur c).held = [.proc p]) (hb : (s.cur c).bare = 0) (hp : s.Parked p) :
      Step c s { s with
        cpu := Function.update s.cpu c { s.cpu c with running := .proc p }
        thread := Function.update
          (Function.update s.thread (.sched c) { s.cur c with pc := .away, held := [], outer := none })
          (.proc p) { s.thread (.proc p) with held := [.proc p] } }
  -- allocproc sets up the thread of a process that does not run
  | allocproc {s} (p) (h : (s.cur c).pc = .run) (hp : s.Parked p) :
      Step c s { s with thread := Function.update s.thread (.proc p) ⟨.start, [], 0, [], none⟩ }

/-- Every CPU is in its scheduler, no lock is held, and no process has been started. -/
structure Initial (s : State P N) : Prop where
  cpu : ∀ c, (s.cpu c).noff = 0 ∧ (s.cpu c).running = .sched c
  sched : ∀ c, s.thread (.sched c) = ⟨.run, [], 0, [], none⟩
  proc : ∀ p, s.thread (.proc p) = ⟨.start, [], 0, [], none⟩
  lock : ∀ l, s.lock l = none

def machine (P N : ℕ) : Lib.System (State P N) where
  init := Initial
  step s t := ∃ c, Step c s t

end Xv6.Intr
