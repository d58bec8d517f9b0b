import Xv6.Str
import Xv6.Lib.Fallible

/-! The tokens of `user/sh.c`: `gettoken` and `peek` on a buffer, and the token sequence of a string. -/
namespace Xv6.Sh

open Lib

/-- A string as it is passed to `parsecmd`, without the NUL at its end. -/
structure Text where
  chars : Str
  nul : 0 ∉ chars

/-- Besides a panic of the shell, a read beyond the NUL and a call that is not made because the fuel
of the model is used up. -/
inductive Fault
  | panic (msg : String)
  | beyond
  | fuel
  deriving DecidableEq

/-- The parser moves the pointer `*ps`, an index into the buffer. -/
abbrev Parser := StateT ℕ (Except Fault)

structure Span where
  q : ℕ
  eq : ℕ
  deriving DecidableEq

inductive Op
  | pipe | lparen | rparen | semi | amp | lt | gt | gtgt
  deriving DecidableEq

def Op.char : Op → UInt8
  | .pipe => 124
  | .lparen => 40
  | .rparen => 41
  | .semi => 59
  | .amp => 38
  | .lt => 60
  | .gt | .gtgt => 62

/-- What `gettoken` returns: `0`, a symbol (with `+` for `>>`), or `a` for a word. -/
inductive Ret
  | nul
  | op (o : Op)
  | a
  deriving DecidableEq

def whitespace : Str := [32, 9, 13, 10, 11]

def symbols : Str := lit "<|>&;()"

def isSpace (c : UInt8) : Bool := c ∈ whitespace

def isWord (c : UInt8) : Bool := !isSpace c && !(c ∈ symbols)

/-- The cases of the switch in `gettoken`; `>` may go on. -/
def opOf (c : UInt8) : Option Op :=
  if c = 124 then some .pipe
  else if c = 40 then some .lparen
  else if c = 41 then some .rparen
  else if c = 59 then some .semi
  else if c = 38 then some .amp
  else if c = 60 then some .lt
  else if c = 62 then some .gt
  else none

section

variable (t : Text)

def Text.es : ℕ := t.chars.length

def Text.read (s : ℕ) : Except Fault UInt8 :=
  match (t.chars ++ [0])[s]? with
  | some c => .ok c
  | none => .error .beyond

/-- The loop `while(s < es && p(*s)) s++`, with `es - s` as the first number. -/
def scan (p : UInt8 → Bool) : ℕ → ℕ → Except Fault ℕ
  | 0, s => .ok s
  | n + 1, s => do
    let c ← t.read s
    if p c then scan p n (s + 1) else .ok s

def switch (s : ℕ) : Except Fault (Ret × ℕ) := do
  let c ← t.read s
  if c = 0 then return (.nul, s)
  else match opOf c with
    | some .gt =>
      let c' ← t.read (s + 1)
      if c' = 62 then return (.op .gtgt, s + 2) else return (.op .gt, s + 1)
    | some o => return (.op o, s + 1)
    | none =>
      let e ← scan t isWord (t.es - s) s
      return (.a, e)

def gettoken : Parser (Ret × Span) := fun ps => do
  let q ← scan t isSpace (t.es - ps) ps
  let (ret, eq) ← switch t q
  let s ← scan t isSpace (t.es - eq) eq
  return ((ret, ⟨q, eq⟩), s)

def peek (toks : Str) : Parser Bool := fun ps => do
  let s ← scan t isSpace (t.es - ps) ps
  let c ← t.read s
  return (c ≠ 0 && c ∈ toks, s)

end

inductive Token
  | op (o : Op)
  | word (text : Str)
  deriving DecidableEq

/-- The token sequence of a string. A word is a longest run of characters that are neither whitespace
nor symbols. -/
def tokens : Str → List Token
  | [] => []
  | c :: cs =>
    if isSpace c then tokens cs
    else match opOf c with
      | some .gt =>
        if cs.head? = some 62 then .op .gtgt :: tokens cs.tail else .op .gt :: tokens cs
      | some o => .op o :: tokens cs
      | none => .word (c :: cs.takeWhile isWord) :: tokens (cs.dropWhile isWord)
  termination_by cs => cs.length
  decreasing_by
    all_goals simp only [List.length_cons, List.length_tail]
    all_goals first
      | omega
      | exact Nat.lt_succ_of_le (List.dropWhile_sublist _).length_le

end Xv6.Sh
