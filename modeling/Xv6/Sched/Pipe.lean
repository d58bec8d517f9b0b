import Xv6.Sched.Exec
import Xv6.Sched.Monitor

/-! A pipe (`kernel/pipe.c`) that any number of processes read, write and close. Its lock is the lock
0, and `&pi->nread` and `&pi->nwrite` are the channels 0 and 1. -/
namespace Xv6.Sched

open Pc Kernel

def pipesize : ℕ := 512

/-- `struct pipe`, and the bytes that have been put in and taken out. -/
structure Pipe where
  data : Fin pipesize → UInt8
  nread : BitVec 32
  nwrite : BitVec 32
  readopen : Bool
  writeopen : Bool
  put : List UInt8
  taken : List UInt8

namespace Pipe

def Empty (pi : Pipe) : Prop := pi.nread = pi.nwrite

/-- `pi->nwrite == pi->nread + PIPESIZE`. -/
def Full (pi : Pipe) : Prop := pi.nwrite = pi.nread + BitVec.ofNat 32 pipesize

instance (pi : Pipe) : Decidable pi.Empty := inferInstanceAs (Decidable (pi.nread = pi.nwrite))

instance (pi : Pipe) : Decidable pi.Full :=
  inferInstanceAs (Decidable (pi.nwrite = pi.nread + BitVec.ofNat 32 pipesize))

def slot (n : BitVec 32) : Fin pipesize := ⟨n.toNat % pipesize, Nat.mod_lt _ (by decide)⟩

/-- `pi->data[pi->nwrite++ % PIPESIZE] = ch`. -/
def store (pi : Pipe) (ch : UInt8) : Pipe :=
  { pi with
    data := Function.update pi.data (slot pi.nwrite) ch
    nwrite := pi.nwrite + 1
    put := pi.put ++ [ch] }

/-- `ch = pi->data[pi->nread++ % PIPESIZE]`. -/
def fetch (pi : Pipe) : Pipe :=
  { pi with
    nread := pi.nread + 1
    taken := pi.taken ++ [pi.data (slot pi.nread)] }

/-- `pi->writeopen = 0` or `pi->readopen = 0`. -/
def shut (pi : Pipe) (writable : Bool) : Pipe :=
  if writable then { pi with writeopen := false } else { pi with readopen := false }

def New (pi : Pipe) : Prop :=
  pi.nread = 0 ∧ pi.nwrite = 0 ∧ pi.readopen = true ∧ pi.writeopen = true ∧ pi.put = [] ∧
    pi.taken = []

end Pipe

/-- Where a process is in the functions of `pipe.c`: `write` and `read` are at the tests of the loops
that sleep. `stored` says that `pipewrite` has stored a byte and not called `wakeup` since. -/
inductive PipePc where
  | idle
  | write (n i : ℤ) (stored : Bool)
  | writeFail (stored : Bool)
  | writeBody (n i : ℤ) (stored : Bool)
  | writeFull (n i : ℤ)
  | writeDone (i : ℤ) (stored : Bool)
  | writeExit (i : ℤ)
  | read (n : ℤ)
  | readFail
  | readBlocked (n : ℤ)
  | readCopy (n i : ℤ)
  | readDone (i : ℤ)
  | readExit (i : ℤ)
  | close (writable : Bool)
  | closeWake (writable : Bool)
  | closeExit
  deriving DecidableEq

namespace PipePc

def holds : PipePc → ℕ → Bool
  | idle, _ => false
  | _, m => decide (m = 0)

/-- `wakeup(&pi->nread)` is due. -/
def owesRead : PipePc → Bool
  | write _ _ stored | writeFail stored | writeBody _ _ stored | writeDone _ stored => stored
  | closeWake writable => writable
  | _ => false

/-- `wakeup(&pi->nwrite)` is due. -/
def owesWrite : PipePc → Bool
  | readCopy .. | readDone _ => true
  | closeWake writable => !writable
  | _ => false

end PipePc

/-- The calls of `pipewrite`, `piperead` and `pipeclose`, by processes that also fork, exit, wait and
kill. When both ends are closed the page of the pipe is freed, and not used again. -/
inductive PipeCalls : PipePc → Pipe → Call PipePc → Prop
  | pipewrite (n pi) : PipeCalls .idle pi (.acquire 0 (.write n 0 false))
  | writeKilled (n i st pi) (hi : i < n) (ho : pi.readopen = true) :
      PipeCalls (.write n i st) pi (.killed fun b => if b then .writeFail st else .writeBody n i st)
  | writeFail (st pi) : PipeCalls (.writeFail st) pi (.release 0 .idle)
  | writeFull (n i st pi) (hf : pi.Full) :
      PipeCalls (.writeBody n i st) pi (.wakeup 0 (.writeFull n i))
  | writeSleep (n i pi) : PipeCalls (.writeFull n i) pi (.sleep 1 0 (.write n i false))
  | writeDone (i st pi) : PipeCalls (.writeDone i st) pi (.wakeup 0 (.writeExit i))
  | writeExit (i pi) : PipeCalls (.writeExit i) pi (.release 0 .idle)
  | piperead (n pi) : PipeCalls .idle pi (.acquire 0 (.read n))
  | readKilled (n pi) (he : pi.Empty) (ho : pi.writeopen = true) :
      PipeCalls (.read n) pi (.killed fun b => if b then .readFail else .readBlocked n)
  | readFail (pi) : PipeCalls .readFail pi (.release 0 .idle)
  | readSleep (n pi) : PipeCalls (.readBlocked n) pi (.sleep 0 0 (.read n))
  | readDone (i pi) : PipeCalls (.readDone i) pi (.wakeup 1 (.readExit i))
  | readExit (i pi) : PipeCalls (.readExit i) pi (.release 0 .idle)
  | pipeclose (w pi) : PipeCalls .idle pi (.acquire 0 (.close w))
  | closeWake (w pi) : PipeCalls (.closeWake w) pi (.wakeup (if w then 0 else 1) .closeExit)
  | closeExit (pi) : PipeCalls .closeExit pi (.release 0 .idle)
  | killed (pi) : PipeCalls .idle pi (.killed fun _ => .idle)
  | setkilled (pi) : PipeCalls .idle pi (.setkilled .idle)
  | kill (pid pi) : PipeCalls .idle pi (.kill pid fun _ => .idle)
  | fork (pi) : PipeCalls .idle pi (.fork fun _ => .idle)
  | exit (status pi) : PipeCalls .idle pi (.exit status)
  | wait (pi) : PipeCalls .idle pi (.wait fun _ => .idle)

/-- What the three functions do to the pipe. `copyin` and `copyout` can fail. -/
inductive PipeMoves : PipePc → Pipe → PipePc → Pipe → Prop
  | writeClosed (n i st pi) (hi : i < n) (ho : pi.readopen = false) :
      PipeMoves (.write n i st) pi (.writeFail st) pi
  | writeEnd (n i st pi) (hi : n ≤ i) : PipeMoves (.write n i st) pi (.writeDone i st) pi
  | store (n i st pi ch) (hf : ¬pi.Full) :
      PipeMoves (.writeBody n i st) pi (.write n (i + 1) true) (pi.store ch)
  | copyin (n i st pi) (hf : ¬pi.Full) : PipeMoves (.writeBody n i st) pi (.writeDone i st) pi
  | readReady (n pi) (h : ¬(pi.Empty ∧ pi.writeopen = true)) :
      PipeMoves (.read n) pi (.readCopy n 0) pi
  | fetch (n i pi) (hi : i < n) (he : ¬pi.Empty) :
      PipeMoves (.readCopy n i) pi (.readCopy n (i + 1)) pi.fetch
  | copyout (n i pi) (hi : i < n) (he : ¬pi.Empty) :
      PipeMoves (.readCopy n i) pi (.readDone i) pi.fetch
  | readEnd (n i pi) (h : n ≤ i ∨ pi.Empty) : PipeMoves (.readCopy n i) pi (.readDone i) pi
  | close (w pi) : PipeMoves (.close w) pi (.closeWake w) (pi.shut w)

def pipes : Client Pipe PipePc where
  start := .idle
  calls _ := PipeCalls
  moves _ := PipeMoves
  device _ _ := False
  holds := PipePc.holds
  start_holds _ := rfl
  calls_keeps h := by
    cases h with
    | writeKilled | readKilled =>
      intro b m
      cases b <;> rfl
    | _ => simp [Call.Keeps, PipePc.holds]
  moves_holds h := by cases h <;> simp [PipePc.holds]

/-- `pipewrite` returns early, having stored a byte since it last called `wakeup(&pi->nread)`. -/
def PipePc.Unannounced (x : PipePc) (_ : Call PipePc) : Prop := x = .writeFail true

/-- What a process has found out about the pipe since it acquired the lock. -/
def Found (_ : Slot) : PipePc → Pipe → Prop
  | .writeBody .., pi => pi.readopen = true
  | .writeFull .., pi => pi.Full ∧ pi.readopen = true
  | .readBlocked _, pi => pi.Empty ∧ pi.writeopen = true
  | _, _ => True

theorem found_of_stable {p : Slot} {z : PipePc} {d e : Pipe}
    (hz : pipes.Entry z ∨ PipePc.holds z 0 = false) (h : Found p z d) : Found p z e := by
  cases z with
  | writeBody n i st | writeFull n i | readBlocked n =>
    rcases hz with ⟨_, _, _, _, ha | ⟨_, ha⟩⟩ | hz
    · cases ha
    · cases ha
    · cases hz
  | _ => trivial

theorem pipes_local : (pipes.without PipePc.Unannounced).Local Found where
  start p d := trivial
  calls {p x d a y} h hc hy := by
    obtain ⟨hc, -⟩ := hc
    cases hc with
    | writeKilled n i st pi hi ho =>
      obtain ⟨b, rfl⟩ := hy
      cases b with
      | false => exact ho
      | true => trivial
    | readKilled n pi he ho =>
      obtain ⟨b, rfl⟩ := hy
      cases b with
      | false => exact ⟨he, ho⟩
      | true => trivial
    | writeFull n i st pi hf =>
      obtain rfl := hy
      exact ⟨hf, h⟩
    | exit status pi => exact hy.elim
    | killed pi | kill pid pi | fork pi | wait pi =>
      obtain ⟨r, rfl⟩ := hy
      trivial
    | _ =>
      obtain rfl := hy
      trivial
  moves h hm := by cases hm <;> trivial
  stable {p q x d y e z} h hm hqp hz hq := by
    have hx : PipePc.holds x 0 = true := by cases hm <;> rfl
    refine found_of_stable (hz.imp ?_ fun hz => hz 0 hx) hq
    rintro ⟨p, x, d, l, ha | ⟨n, ha⟩⟩
    · exact ⟨p, x, d, l, Or.inl ha.1⟩
    · exact ⟨p, x, d, l, Or.inr ⟨n, ha.1⟩⟩
  device h := h.elim

theorem pipes_readers : Monitor (pipes.without PipePc.Unannounced) Found 0 0
    (fun pi => pi.Empty ∧ pi.writeopen = true) PipePc.owesRead where
  sleeps h hc := by
    obtain ⟨hc, -⟩ := hc
    cases hc with
    | readSleep n pi => exact ⟨rfl, h⟩
  held {x} h := by
    cases x with
    | idle => cases h
    | _ => rfl
  pays {p x d a} hc ho := by
    obtain ⟨hc, hne⟩ := hc
    cases hc with
    | writeKilled n i st pi hi hr =>
      intro b
      cases b <;> exact ho
    | writeFail st pi =>
      obtain rfl : st = true := ho
      exact (hne rfl).elim
    | writeFull n i st pi hf => exact Or.inl rfl
    | writeDone i st pi => exact Or.inl rfl
    | closeWake w pi =>
      obtain rfl : w = true := ho
      exact Or.inl rfl
    | _ => cases ho
  keeps hm ho := by
    cases hm with
    | store n i st pi ch hf => rfl
    | readReady | fetch | copyout | readEnd | close => cases ho
    | _ => exact ho
  moves hm hr := by
    cases hm with
    | store n i st pi ch hf => exact Or.inr rfl
    | fetch n i pi hi he | copyout n i pi hi he => exact (he hr.1).elim
    | close w pi =>
      cases w with
      | true => exact Or.inr rfl
      | false => exact Or.inl hr
    | _ => exact Or.inl hr
  device h := h.elim

theorem pipes_writers : Monitor (pipes.without PipePc.Unannounced) Found 1 0
    (fun pi => pi.Full ∧ pi.readopen = true) PipePc.owesWrite where
  sleeps h hc := by
    obtain ⟨hc, -⟩ := hc
    cases hc with
    | writeSleep n i pi => exact ⟨rfl, h⟩
  held {x} h := by
    cases x with
    | idle => cases h
    | _ => rfl
  pays {p x d a} hc ho := by
    obtain ⟨hc, -⟩ := hc
    cases hc with
    | readDone i pi => exact Or.inl rfl
    | closeWake w pi =>
      obtain rfl : w = false := by simpa [PipePc.owesWrite] using ho
      exact Or.inl rfl
    | _ => cases ho
  keeps hm ho := by
    cases hm with
    | fetch | copyout | readEnd => rfl
    | _ => cases ho
  moves hm hr := by
    cases hm with
    | store n i st pi ch hf => exact (hf hr.1).elim
    | fetch n i pi hi he | copyout n i pi hi he => exact Or.inr rfl
    | close w pi =>
      cases w with
      | true => exact Or.inl hr
      | false => exact Or.inr rfl
    | _ => exact Or.inl hr
  device h := h.elim

/-- As long as no call of `pipewrite` returns early with bytes stored that it has not announced, a
process that sleeps on the pipe has a reason to, whenever the lock of the pipe is free. -/
theorem pipe_sleepers {N : ℕ} {s : Kernel N Pipe PipePc}
    (h : (machine N (pipes.without PipePc.Unannounced) Pipe.New).Reachable s)
    (hl : s.lock (.other 0) = none) (p : Slot) (hp : (s.proc p).state = .sleeping) :
    ((s.proc p).chan = some (.other 0) → s.data.Empty ∧ s.data.writeopen = true) ∧
      ((s.proc p).chan = some (.other 1) → s.data.Full ∧ s.data.readopen = true) :=
  ⟨fun hn => pipes_readers.asleep pipes_local h hl hp hn,
    fun hn => pipes_writers.asleep pipes_local h hl hp hn⟩

def newPipe : Pipe := ⟨fun _ => 0, 0, 0, true, true, [], []⟩

theorem newPipe_new : newPipe.New := ⟨rfl, rfl, rfl, rfl, rfl, rfl⟩

attribute [local instance] neZero_one

/-- The first process has called `piperead` on the empty pipe. -/
def reading : Kernel 1 Pipe PipePc :=
  let s₁ := ((boot 1 pipes newPipe).exec .idle 0 5).call 0 initproc (.acquire 0 (.read 1))
  let s₂ := (s₁.exec .idle 0 1).call 0 initproc
    (.killed fun b => if b then .readFail else .readBlocked 1)
  ((s₂.exec .idle 0 3).call 0 initproc (.sleep 0 0 (.read 1))).exec .idle 0 5

theorem pipe_sleepers_reading : (reading.proc initproc).state = .sleeping ∧
    reading.data.Empty ∧ reading.data.writeopen = true := by
  have h₀ : (machine 1 (pipes.without PipePc.Unannounced) Pipe.New).Reachable
      (boot 1 pipes newPipe) := .init (boot_initial newPipe_new)
  have h₁ := Reachable.call (Reachable.exec h₀ 0 5) 0 initproc .idle (.acquire 0 (.read 1))
    (by decide +kernel) ⟨.piperead .., (by rintro ⟨⟩)⟩
  have h₂ := Reachable.call (Reachable.exec h₁ 0 1) 0 initproc (.read 1)
    (.killed fun b => if b then .readFail else .readBlocked 1) (by decide +kernel)
    ⟨.readKilled _ _ (by decide +kernel) (by decide +kernel), (by rintro ⟨⟩)⟩
  have h₃ : (machine 1 (pipes.without PipePc.Unannounced) Pipe.New).Reachable reading :=
    Reachable.exec (Reachable.call (Reachable.exec h₂ 0 3) 0 initproc (.readBlocked 1)
      (.sleep 0 0 (.read 1)) (by decide +kernel) ⟨.readSleep .., (by rintro ⟨⟩)⟩) 0 5
  have hs : (reading.proc initproc).state = .sleeping := by decide +kernel
  exact ⟨hs, (pipe_sleepers h₃ (by decide +kernel) initproc hs).1 (by decide +kernel)⟩

def thirdproc : Slot := ⟨2, by decide⟩

/-- The first process has forked twice. The second runs on the other CPU. -/
def forkedTwice : Kernel 2 Pipe PipePc :=
  let s₁ := ((boot 2 pipes newPipe).exec .idle 0 5).call 0 initproc (.fork fun _ => .idle)
  let s₂ := (s₁.exec .idle 0 16).call 0 initproc (.fork fun _ => .idle)
  (s₂.exec .idle 0 20).exec .idle 1 9

/-- The first process sleeps in `piperead`, and the third runs instead. -/
def readerAsleep : Kernel 2 Pipe PipePc :=
  let s₁ := (forkedTwice.call 0 initproc (.acquire 0 (.read 1))).exec .idle 0 1
  let s₂ := (s₁.call 0 initproc
    (.killed fun b => if b then .readFail else .readBlocked 1)).exec .idle 0 3
  (s₂.call 0 initproc (.sleep 0 0 (.read 1))).exec .idle 0 20

/-- The second process is in `pipewrite`, before the first byte. -/
def writing : Kernel 2 Pipe PipePc :=
  let s₁ := (readerAsleep.call 1 secondproc (.acquire 0 (.write 2 0 false))).exec .idle 1 1
  (s₁.call 1 secondproc
    (.killed fun b => if b then .writeFail false else .writeBody 2 0 false)).exec .idle 1 3

def storedOne : Kernel 2 Pipe PipePc :=
  { writing.goto 1 (.client (.write 2 1 true)) with data := writing.data.store 97 }

def killedWriter : Kernel 2 Pipe PipePc :=
  (storedOne.call 0 thirdproc (.kill 2 fun _ => .idle)).exec .idle 0 8

def stranded : Kernel 2 Pipe PipePc :=
  let s₁ := (killedWriter.call 1 secondproc
    (.killed fun b => if b then .writeFail true else .writeBody 2 1 true)).exec .idle 1 3
  (s₁.call 1 secondproc (.release 0 .idle)).exec .idle 1 1

theorem writing_reachable : (machine 2 pipes Pipe.New).Reachable writing := by
  have h₀ : (machine 2 pipes Pipe.New).Reachable (boot 2 pipes newPipe) :=
    .init (boot_initial newPipe_new)
  have h₁ := Reachable.call (Reachable.exec h₀ 0 5) 0 initproc .idle (.fork fun _ => .idle)
    (by decide +kernel) (.fork _)
  have h₂ := Reachable.call (Reachable.exec h₁ 0 16) 0 initproc .idle (.fork fun _ => .idle)
    (by decide +kernel) (.fork _)
  have h₃ : (machine 2 pipes Pipe.New).Reachable forkedTwice :=
    Reachable.exec (Reachable.exec h₂ 0 20) 1 9
  have h₄ := Reachable.exec (Reachable.call h₃ 0 initproc .idle (.acquire 0 (.read 1))
    (by decide +kernel) (.piperead ..)) 0 1
  have h₅ := Reachable.exec (Reachable.call h₄ 0 initproc (.read 1)
    (.killed fun b => if b then .readFail else .readBlocked 1) (by decide +kernel)
    (.readKilled _ _ (by decide +kernel) (by decide +kernel))) 0 3
  have h₆ : (machine 2 pipes Pipe.New).Reachable readerAsleep :=
    Reachable.exec (Reachable.call h₅ 0 initproc (.readBlocked 1) (.sleep 0 0 (.read 1))
      (by decide +kernel) (.readSleep ..)) 0 20
  have h₇ := Reachable.exec (Reachable.call h₆ 1 secondproc .idle (.acquire 0 (.write 2 0 false))
    (by decide +kernel) (.pipewrite ..)) 1 1
  exact Reachable.exec (Reachable.call h₇ 1 secondproc (.write 2 0 false)
    (.killed fun b => if b then .writeFail false else .writeBody 2 0 false) (by decide +kernel)
    (.writeKilled _ _ _ _ (by decide) (by decide +kernel))) 1 3

theorem stranded_reachable : (machine 2 pipes Pipe.New).Reachable stranded := by
  have h₁ : (machine 2 pipes Pipe.New).Reachable storedOne :=
    Reachable.move writing_reachable 1 secondproc (.writeBody 2 0 false) (.write 2 1 true) _
      (by decide +kernel) (.store _ _ _ _ 97 (by decide +kernel))
  have h₂ : (machine 2 pipes Pipe.New).Reachable killedWriter :=
    Reachable.exec (Reachable.call h₁ 0 thirdproc .idle (.kill 2 fun _ => .idle)
      (by decide +kernel) (.kill ..)) 0 8
  have h₃ := Reachable.exec (Reachable.call h₂ 1 secondproc (.write 2 1 true)
    (.killed fun b => if b then .writeFail true else .writeBody 2 1 true) (by decide +kernel)
    (.writeKilled _ _ _ _ (by decide) (by decide +kernel))) 1 3
  exact Reachable.exec (Reachable.call h₃ 1 secondproc (.writeFail true) (.release 0 .idle)
    (by decide +kernel) (.writeFail ..)) 1 1

/-- A writer that is killed between two bytes leaves a reader asleep on a pipe that is not empty. -/
theorem pipewrite_strands_reader : ∃ (s : Kernel 2 Pipe PipePc) (p : Slot),
    (machine 2 pipes Pipe.New).Reachable s ∧ s.lock (.other 0) = none ∧
      (s.proc p).state = .sleeping ∧ (s.proc p).chan = some (.other 0) ∧ ¬s.data.Empty := by
  refine ⟨stranded, initproc, stranded_reachable, ?_, ?_, ?_, ?_⟩
  all_goals decide +kernel

end Xv6.Sched
