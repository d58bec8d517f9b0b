import Xv6.Lib.Ring
import Xv6.Lib.System

/-! Console input, `kernel/console.c`: the interrupt handler `consoleintr`, which edits and commits
lines, and any number of processes in `consoleread`. -/
namespace Xv6.Console

open Lib (Ring.cell Ring.count Ring.entries)

def inputBufSize : ℕ := 128

instance : NeZero inputBufSize := ⟨by decide⟩

def ctrl (x : Char) : UInt8 := x.toUInt8 - '@'.toUInt8

def ctrlD : UInt8 := ctrl 'D'

def newline : UInt8 := '\n'.toUInt8

structure Cons where
  buf : Fin inputBufSize → UInt8
  r : BitVec 32
  w : BitVec 32
  e : BitVec 32

namespace Cons

/-- `cons.buf[i % INPUT_BUF_SIZE]`. -/
def get (cons : Cons) (i : BitVec 32) : UInt8 := cons.buf (Ring.cell inputBufSize i)

/-- The loop of `C('U')`, which removes the characters typed since the last newline. -/
def killLine (cons : Cons) : Cons :=
  if _h : cons.e ≠ cons.w ∧ cons.get (cons.e - 1) ≠ newline then
    killLine { cons with e := cons.e - 1 }
  else cons
termination_by Ring.count cons.w cons.e
decreasing_by
  have := Lib.Ring.count_pred _h.1.symm
  omega

/-- A character is stored, and the line is committed at its end, at ^D or when the buffer is full. -/
def store (cons : Cons) (c : UInt8) : Cons :=
  let e := cons.e + 1
  { cons with
    buf := Function.update cons.buf (Ring.cell inputBufSize cons.e) c
    e := e
    w := if c = newline ∨ c = ctrlD ∨ Ring.count cons.r e = inputBufSize then e else cons.w }

/-- `consoleintr`, apart from what it prints. -/
def consoleintr (cons : Cons) (c : UInt8) : Cons :=
  if c = ctrl 'P' then cons
  else if c = ctrl 'U' then cons.killLine
  else if c = ctrl 'H' ∨ c = 0x7f then
    if cons.e ≠ cons.w then { cons with e := cons.e - 1 } else cons
  else if c ≠ 0 ∧ Ring.count cons.r cons.e < inputBufSize then
    cons.store (if c = '\r'.toUInt8 then newline else c)
  else cons

def pending (cons : Cons) : List UInt8 := Ring.entries cons.buf cons.r cons.w

end Cons

/-- A call of `consoleread` in its loop: `id` tells it from the others, and `got` is what it has
copied to its destination. -/
structure Call where
  id : ℕ
  target : ℕ
  n : ℕ
  got : List UInt8

inductive Pc where
  /-- Not in `consoleread`. -/
  | idle
  /-- Before `acquire(&cons.lock)`. -/
  | enter (n : ℕ)
  /-- At `while(n > 0)`. -/
  | loop (k : Call)
  /-- In `sleep(&cons.r, &cons.lock)`. -/
  | asleep (k : Call)

def Pc.call : Pc → Option Call
  | loop k | asleep k => some k
  | idle | enter _ => none

inductive Reason where
  /-- After a newline. -/
  | line
  /-- With `n` bytes. -/
  | full
  /-- At ^D, which was the first byte. -/
  | eof
  /-- At ^D, which was left for the next call. -/
  | kept
  deriving DecidableEq

/-- A call that has returned `target - n`, when `pos` bytes had been taken out of the buffer. -/
structure Ended extends Call where
  reason : Reason
  pos : ℕ

/-- The console and its readers, with what has been committed, what has been taken out of the buffer,
by which call, and the calls that have returned. -/
structure State (ι : Type) where
  cons : Cons
  lock : Option ι
  pc : ι → Pc
  calls : ℕ
  committed : List UInt8
  taken : List (ℕ × UInt8)
  ended : List Ended

variable {ι : Type} [DecidableEq ι]

namespace State

variable (s : State ι) (i : ι)

def intr (c : UInt8) : State ι :=
  let cons := s.cons.consoleintr c
  { s with
    cons := cons
    committed := s.committed ++ Ring.entries cons.buf s.cons.w cons.w }

/-- `cons.r++`, and the byte goes to call `k`. -/
def fetch (k : Call) : State ι :=
  { s with
    cons := { s.cons with r := s.cons.r + 1 }
    taken := s.taken ++ [(k.id, s.cons.get s.cons.r)] }

def next (k : Call) : State ι := { s with pc := Function.update s.pc i (.loop k) }

/-- `release(&cons.lock)` and `return target - n`. -/
def finish (k : Call) (reason : Reason) : State ι :=
  { s with
    lock := none
    pc := Function.update s.pc i .idle
    ended := s.ended ++ [⟨k, reason, s.taken.length⟩] }

end State

def Call.push (k : Call) (c : UInt8) : Call := { k with n := k.n - 1, got := k.got ++ [c] }

/-- The interrupt handler and the readers run with the lock, except where a reader sleeps. -/
inductive Step : State ι → State ι → Prop
  | intr {s} (c) (hl : s.lock = none) : Step s (s.intr c)
  | call {s} (i n) (h : s.pc i = .idle) (hn : 0 < n) :
      Step s { s with pc := Function.update s.pc i (.enter n) }
  | acquire {s} (i n) (h : s.pc i = .enter n) (hl : s.lock = none) :
      Step s { s with
        lock := some i
        calls := s.calls + 1
        pc := Function.update s.pc i (.loop ⟨s.calls, n, n, []⟩) }
  | sleep {s} (i k) (h : s.pc i = .loop k) (hn : 0 < k.n) (he : s.cons.r = s.cons.w) :
      Step s { s with lock := none, pc := Function.update s.pc i (.asleep k) }
  | wake {s} (i k) (h : s.pc i = .asleep k) (hl : s.lock = none) :
      Step s { s with lock := some i, pc := Function.update s.pc i (.loop k) }
  | full {s} (i k) (h : s.pc i = .loop k) (hn : k.n = 0) : Step s (s.finish i k .full)
  | kept {s} (i k) (h : s.pc i = .loop k) (hn : 0 < k.n) (he : s.cons.r ≠ s.cons.w)
      (hc : s.cons.get s.cons.r = ctrlD) (hk : k.n < k.target) : Step s (s.finish i k .kept)
  | eof {s} (i k) (h : s.pc i = .loop k) (hn : 0 < k.n) (he : s.cons.r ≠ s.cons.w)
      (hc : s.cons.get s.cons.r = ctrlD) (hk : ¬k.n < k.target) :
      Step s ((s.fetch k).finish i k .eof)
  | line {s} (i k) (h : s.pc i = .loop k) (hn : 0 < k.n) (he : s.cons.r ≠ s.cons.w)
      (hc : s.cons.get s.cons.r = newline) :
      Step s ((s.fetch k).finish i (k.push newline) .line)
  | byte {s} (i k c) (h : s.pc i = .loop k) (hn : 0 < k.n) (he : s.cons.r ≠ s.cons.w)
      (hc : s.cons.get s.cons.r = c) (hd : c ≠ ctrlD) (hnl : c ≠ newline) :
      Step s ((s.fetch k).next i (k.push c))

/-- Nothing has been typed, and nobody reads; the indices are equal. -/
structure Initial (s : State ι) : Prop where
  empty : s.cons.r = s.cons.w ∧ s.cons.w = s.cons.e
  lock : s.lock = none
  pc : ∀ i, s.pc i = .idle
  calls : s.calls = 0
  history : s.committed = [] ∧ s.taken = [] ∧ s.ended = []

def machine (ι : Type) [DecidableEq ι] : Lib.System (State ι) where
  init := Initial
  step := Step

end Xv6.Console
