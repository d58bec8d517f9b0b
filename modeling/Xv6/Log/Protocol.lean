import Xv6.Lib.System
import Xv6.Param

/-! The group-commit protocol of `kernel/log.c`. Any number of processes run `begin_op`,
`log_write` and `end_op`; a step is one acquisition of `log.lock`, one critical section, one
iteration of `wakeup`, or one of the two halves of `commit` around `log.lh.n = 0`. -/
namespace Xv6

/-- `struct log` without its lock; `lh` is `lh.block[0..n)`. -/
structure Log where
  size : ℤ
  outstanding : ℤ
  committing : Bool
  lh : List ℕ
  deriving DecidableEq, Repr

namespace Log

/-- The test on which `begin_op` sleeps. -/
def mustWait (l : Log) : Bool :=
  l.committing || decide ((l.lh.length : ℤ) + (l.outstanding + 1) * maxOpBlocks > logSize)

theorem mustWait_iff {l : Log} : l.mustWait = true ↔
    l.committing = true ∨ (l.lh.length : ℤ) + (l.outstanding + 1) * maxOpBlocks > logSize := by
  simp [mustWait]

/-- The critical section of `log_write`. The flag says whether the buffer is pinned: a block that
is already listed is absorbed. -/
def logWrite (l : Log) (b : ℕ) : Except String (Log × Bool) :=
  if (l.lh.length : ℤ) ≥ logSize ∨ (l.lh.length : ℤ) ≥ l.size - 1 then
    .error "too big a transaction"
  else if l.outstanding < 1 then .error "log_write outside of trans"
  else if b ∈ l.lh then .ok (l, false)
  else .ok ({ l with lh := l.lh ++ [b] }, true)

/-- The first critical section of `end_op`; the flag is `do_commit`. -/
def endOp (l : Log) : Except String (Log × Bool) :=
  let l := { l with outstanding := l.outstanding - 1 }
  if l.committing then .error "log.committing"
  else if l.outstanding = 0 then .ok ({ l with committing := true }, true)
  else .ok (l, false)

theorem logWrite_ok {l l' : Log} {b : ℕ} {pin : Bool} (h : logWrite l b = .ok (l', pin)) :
    (l.lh.length : ℤ) < logSize ∧ (l.lh.length : ℤ) < l.size - 1 ∧
      l' = { l with lh := if b ∈ l.lh then l.lh else l.lh ++ [b] } ∧ pin = decide (b ∉ l.lh) := by
  unfold logWrite at h
  split_ifs at h with hbig hout hmem
  · simp only [Except.ok.injEq, Prod.mk.injEq] at h
    obtain ⟨rfl, rfl⟩ := h
    exact ⟨by omega, by omega, by simp [hmem], by simp [hmem]⟩
  · simp only [Except.ok.injEq, Prod.mk.injEq] at h
    exact ⟨by omega, by omega, by simp [hmem, h.1], by simp [hmem, ← h.2]⟩

theorem logWrite_error {l : Log} {b : ℕ} {msg : String} (h : logWrite l b = .error msg) :
    msg = "too big a transaction" ∧
        ((l.lh.length : ℤ) ≥ logSize ∨ (l.lh.length : ℤ) ≥ l.size - 1) ∨
      msg = "log_write outside of trans" ∧ l.outstanding < 1 := by
  unfold logWrite at h
  split_ifs at h with hbig hout hmem
  · exact Or.inl ⟨(Except.error.inj h).symm, hbig⟩
  · exact Or.inr ⟨(Except.error.inj h).symm, hout⟩

theorem endOp_ok {l l' : Log} {doCommit : Bool} (h : endOp l = .ok (l', doCommit)) :
    l.committing = false ∧ (doCommit = true ↔ l.outstanding - 1 = 0) ∧
      l' = { l with outstanding := l.outstanding - 1, committing := doCommit } := by
  obtain ⟨size, outstanding, committing, lh⟩ := l
  cases committing with
  | true => simp [endOp] at h
  | false =>
    by_cases h0 : outstanding - 1 = 0
    · simp only [endOp, Bool.false_eq_true, if_false, h0, if_true, Except.ok.injEq,
        Prod.mk.injEq] at h
      obtain ⟨rfl, rfl⟩ := h
      simp [h0]
    · simp only [endOp, Bool.false_eq_true, if_false, h0, Except.ok.injEq, Prod.mk.injEq] at h
      obtain ⟨rfl, rfl⟩ := h
      simp [h0]

theorem endOp_error {l : Log} {msg : String} (h : endOp l = .error msg) : l.committing = true := by
  obtain ⟨size, outstanding, committing, lh⟩ := l
  cases committing with
  | true => rfl
  | false => by_cases h0 : outstanding - 1 = 0 <;> simp [endOp, h0] at h

/-- Where a process is. `sleepLocked` and `sleepReleased` are inside `sleep`, with `p->lock` held
and `log.lock` not yet, respectively already, released. -/
inductive Pc where
  | user
  | beginAcquire
  | beginTest
  | sleepLocked
  | sleepReleased
  | sleeping
  | woken
  | op
  | writeAcquire (b : ℕ)
  | writeHeld (b : ℕ)
  | endAcquire
  | endHeld
  | commit
  | commitCleared
  | commitAcquire
  | commitHeld
  | wakeup (k : ℕ)
  deriving DecidableEq, Repr

namespace Pc

/-- Between the increment and the decrement of `log.outstanding`. -/
def admitted : Pc → Bool
  | op | writeAcquire _ | writeHeld _ | endAcquire | endHeld => true
  | _ => false

/-- Between the two assignments to `log.committing`. -/
def inCommit : Pc → Bool
  | commit | commitCleared | commitAcquire | commitHeld => true
  | _ => false

/-- Past `log.lh.n = 0` in `commit`. -/
def cleared : Pc → Bool
  | commitCleared | commitAcquire | commitHeld => true
  | _ => false

def holds : Pc → Bool
  | beginTest | sleepLocked | writeHeld _ | endHeld | commitHeld | wakeup _ => true
  | _ => false

def ownLock : Pc → Bool
  | sleepLocked | sleepReleased => true
  | _ => false

def asleep : Pc → Bool
  | sleepLocked | sleepReleased | sleeping => true
  | _ => false

/-- The point reached by a process that gets `log.lock`. -/
def acquired : Pc → Option Pc
  | beginAcquire | woken => some beginTest
  | writeAcquire b => some (writeHeld b)
  | endAcquire => some endHeld
  | commitAcquire => some commitHeld
  | _ => none

end Pc

/-- One completed `log_write`: the operation, the number of commits before it, the block. -/
structure LogEvent where
  op : ℕ
  epoch : ℕ
  block : ℕ
  deriving DecidableEq, Repr

/-- `lock` is the owner of `log.lock`. The last four fields are history: the number of the
operation each process is in, the number of operations admitted, the blocks of every finished
`commit`, and every `log_write`. -/
structure State (N : ℕ) where
  log : Log
  lock : Option (Fin N)
  pc : Fin N → Pc
  panicked : Option String
  opId : Fin N → ℕ
  nextOp : ℕ
  commits : List (List ℕ)
  history : List LogEvent

namespace State

variable {N : ℕ}

def goto (s : State N) (p : Fin N) (c : Pc) : State N :=
  { s with pc := Function.update s.pc p c }

/-- Blocks logged so far by the operation that `p` is in. -/
def written (s : State N) (p : Fin N) : Finset ℕ :=
  ((s.history.filter fun e => e.op = s.opId p).map LogEvent.block).toFinset

/-- The body of the loop of `wakeup(&log)` for process `k`. -/
def wake (s : State N) (p k : Fin N) : State N :=
  if k ≠ p ∧ s.pc k = .sleeping then s.goto k .woken else s

end State

/-- `allowed` restricts the blocks that an operation asks `log_write` to record. -/
inductive Step {N : ℕ} (allowed : State N → Fin N → ℕ → Prop) : State N → State N → Prop
  | beginOp {s} (p) (h : s.pc p = .user) : Step allowed s (s.goto p .beginAcquire)
  | acquire {s} (p c) (h : (s.pc p).acquired = some c) (hl : s.lock = none) :
      Step allowed s { s.goto p c with lock := some p }
  | sleep {s} (p) (h : s.pc p = .beginTest) (hw : s.log.mustWait = true) :
      Step allowed s (s.goto p .sleepLocked)
  | sleepRelease {s} (p) (h : s.pc p = .sleepLocked) :
      Step allowed s { s.goto p .sleepReleased with lock := none }
  | sleepSwitch {s} (p) (h : s.pc p = .sleepReleased) : Step allowed s (s.goto p .sleeping)
  | enter {s} (p) (h : s.pc p = .beginTest) (hw : s.log.mustWait = false) :
      Step allowed s { s.goto p .op with
        log := { s.log with outstanding := s.log.outstanding + 1 }
        lock := none
        opId := Function.update s.opId p s.nextOp
        nextOp := s.nextOp + 1 }
  | callWrite {s} (p b) (h : s.pc p = .op) (ha : allowed s p b) :
      Step allowed s (s.goto p (.writeAcquire b))
  | write {s} (p b l pin) (h : s.pc p = .writeHeld b) (hw : logWrite s.log b = .ok (l, pin)) :
      Step allowed s { s.goto p .op with
        log := l
        lock := none
        history := s.history ++ [⟨s.opId p, s.commits.length, b⟩] }
  | writePanic {s} (p b msg) (h : s.pc p = .writeHeld b) (hw : logWrite s.log b = .error msg) :
      Step allowed s { s with panicked := some msg }
  | callEnd {s} (p) (h : s.pc p = .op) : Step allowed s (s.goto p .endAcquire)
  | endLast {s} (p l) (h : s.pc p = .endHeld) (he : endOp s.log = .ok (l, true)) :
      Step allowed s { s.goto p .commit with log := l, lock := none }
  | endMore {s} (p l) (h : s.pc p = .endHeld) (he : endOp s.log = .ok (l, false)) :
      Step allowed s { s.goto p (.wakeup 0) with log := l }
  | endPanic {s} (p msg) (h : s.pc p = .endHeld) (he : endOp s.log = .error msg) :
      Step allowed s { s with panicked := some msg }
  | clear {s} (p) (h : s.pc p = .commit) :
      Step allowed s { s.goto p .commitCleared with
        log := { s.log with lh := [] }
        commits := s.commits ++ [s.log.lh] }
  | clearWritten {s} (p) (h : s.pc p = .commitCleared) : Step allowed s (s.goto p .commitAcquire)
  | finish {s} (p) (h : s.pc p = .commitHeld) :
      Step allowed s { s.goto p (.wakeup 0) with log := { s.log with committing := false } }
  | wakeOne {s} (p k) (h : s.pc p = .wakeup k.val) (hk : (s.pc k).ownLock = false) :
      Step allowed s ((s.wake p k).goto p (.wakeup (k.val + 1)))
  | wakeDone {s} (p) (h : s.pc p = .wakeup N) :
      Step allowed s { s.goto p .user with lock := none }
  | kill {s} (q) (h : s.pc q = .sleeping) : Step allowed s (s.goto q .woken)

/-- After `initlog`: nothing outstanding, nothing logged, every process outside the log. -/
structure Initial {N : ℕ} (size : ℤ) (s : State N) : Prop where
  log : s.log = ⟨size, 0, false, []⟩
  lock : s.lock = none
  pc : ∀ p, s.pc p = .user
  panicked : s.panicked = none
  nextOp : s.nextOp = 0
  commits : s.commits = []
  history : s.history = []

def boot (N : ℕ) (size : ℤ) : State N :=
  ⟨⟨size, 0, false, []⟩, none, fun _ => .user, none, fun _ => 0, 0, [], []⟩

theorem boot_initial (N : ℕ) (size : ℤ) : Initial size (boot N size) :=
  ⟨rfl, rfl, fun _ => rfl, rfl, rfl, rfl, rfl⟩

/-- Nothing moves once the kernel has panicked. -/
def protocol (N : ℕ) (size : ℤ) (allowed : State N → Fin N → ℕ → Prop) : Lib.System (State N) where
  init := Initial size
  step s t := s.panicked = none ∧ Step allowed s t

end Log

end Xv6
