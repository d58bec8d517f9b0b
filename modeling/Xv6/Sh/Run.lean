import Xv6.Lib.Prog
import Xv6.Param
import Xv6.Sh.Parser

/-! `runcmd` of `user/sh.c`, and processes that run it with descriptor tables of their own. -/
namespace Xv6.Sh

open Lib

/-- An open file: one that the shell was started with, one opened by name, or an end of a pipe. -/
inductive File
  | inherited (fd : ℕ)
  | opened (path : Str) (mode : ℕ)
  | pipe (k : ℕ) (write : Bool)
  deriving DecidableEq

abbrev Table := ℕ → Option File

namespace Table

def fdallocFrom (t : Table) (f : File) : ℕ → ℕ → Option (ℕ × Table)
  | 0, _ => none
  | n + 1, fd =>
    if t fd = none then some (fd, Function.update t fd (some f)) else fdallocFrom t f n (fd + 1)

def fdalloc (t : Table) (f : File) : Option (ℕ × Table) := fdallocFrom t f nofile 0

def newfd (t : Table) (f : File) : ℤ × Table :=
  match t.fdalloc f with
  | some (fd, t') => (fd, t')
  | none => (-1, t)

def sysClose (t : Table) (fd : ℕ) : ℤ × Table :=
  match t fd with
  | some _ => (0, Function.update t fd none)
  | none => (-1, t)

def sysDup (t : Table) (fd : ℕ) : ℤ × Table :=
  match t fd with
  | some f => t.newfd f
  | none => (-1, t)

/-- `sys_pipe` with the new pipe `k`: the two descriptors, or `none` for -1. -/
def sysPipe (t : Table) (k : ℕ) : Option (ℕ × ℕ) × Table :=
  match t.fdalloc (.pipe k false) with
  | some (fd0, t₁) =>
    match t₁.fdalloc (.pipe k true) with
    | some (fd1, t₂) => (some (fd0, fd1), t₂)
    | none => (none, t)
  | none => (none, t)

end Table

inductive Branch
  | redir (r : Redir Str)
  | first
  | second
  | left
  | right
  | back

/-- The system calls of `runcmd`, and its calls of itself, which do not return. -/
inductive Sys
  | close (fd : ℕ)
  | dup (fd : ℕ)
  | openFile (path : Str) (mode : ℕ)
  | pipe
  | fork
  | wait
  | exec (argv : List Str)
  | exit (status : ℤ)
  | runcmd (b : Branch) (cmd : Cmd Str)

def sys : Interface where
  Op := Sys
  Result
    | .pipe => Option (ℕ × ℕ)
    | .exec _ => Unit
    | .exit _ => Empty
    | .runcmd _ _ => Empty
    | _ => ℤ

abbrev Code := Prog sys Empty

def close (fd : ℕ) : Prog sys ℤ := .op (.close fd) .ret

def dup (fd : ℕ) : Prog sys ℤ := .op (.dup fd) .ret

def exit {α : Type} (status : ℤ) : Prog sys α := .op (.exit status) fun e => e.elim

def openFile (path : Str) (mode : ℕ) : Prog sys ℤ := .op (.openFile path mode) .ret

def pipe : Prog sys (Option (ℕ × ℕ)) := .op .pipe .ret

def fork : Prog sys ℤ := .op .fork .ret

def exec (argv : List Str) : Prog sys Unit := .op (.exec argv) .ret

def fork1 : Prog sys ℤ := do
  let pid ← fork
  if pid = -1 then exit 1 else return pid

def wait : Prog sys ℤ := .op .wait .ret

def recurse (b : Branch) (cmd : Cmd Str) : Code := .op (.runcmd b cmd) .ret

def runcmd : Cmd Str → Code
  | .exec argv =>
    if argv = [] then exit 1
    else do
      exec argv
      exit 0
  | .redir cmd r => do
    let _ ← close r.fd
    let fd ← openFile r.file r.mode
    if fd < 0 then exit 1 else recurse (.redir r) cmd
  | .list left right => do
    let pid ← fork1
    if pid = 0 then recurse .first left
    else
      let _ ← wait
      recurse .second right
  | .pipe left right => do
    let p ← pipe
    match p with
    | none => exit 1
    | some (p0, p1) =>
      let pid ← fork1
      if pid = 0 then
        let _ ← close 1
        let _ ← dup p1
        let _ ← close p0
        let _ ← close p1
        recurse .left left
      else
        let pid ← fork1
        if pid = 0 then
          let _ ← close 0
          let _ ← dup p0
          let _ ← close p0
          let _ ← close p1
          recurse .right right
        else
          let _ ← close p0
          let _ ← close p1
          let _ ← wait
          let _ ← wait
          exit 0
  | .back cmd => do
    let pid ← fork1
    if pid = 0 then recurse .back cmd else exit 0

/-- A call of `runcmd` that a process is in, with the pipe that was made there. -/
inductive Call
  | redir (r : Redir Str)
  | first
  | second
  | left (k : ℕ)
  | right (k : ℕ)
  | back
  deriving DecidableEq

def Branch.call : Branch → Option ℕ → Option Call
  | redir r, _ => some (.redir r)
  | first, _ => some .first
  | second, _ => some .second
  | left, p => p.map .left
  | right, p => p.map .right
  | back, _ => some .back

inductive Phase
  | shell (code : Code)
  | program
  | zombie

structure Proc where
  parent : ℕ
  phase : Phase
  ofile : Table
  /-- The calls of `runcmd` that it is in, outermost first. -/
  calls : List Call
  /-- The pipe made in the innermost of them. -/
  pipe : Option ℕ

structure State where
  procs : ℕ → Option Proc
  /-- For every pipe the calls in which it was made. -/
  pipes : List (List Call)

def State.set (s : State) (i : ℕ) (P : Proc) : State :=
  { s with procs := Function.update s.procs i (some P) }

def State.remove (s : State) (i : ℕ) : State :=
  { s with procs := Function.update s.procs i none }

/-- One system call of one process, all of which succeed as far as descriptors allow. -/
inductive Step (s : State) : State → Prop
  | close {i fd : ℕ} {P : Proc} {k : ℤ → Code} (h : s.procs i = some P)
      (hc : P.phase = .shell (.op (.close fd) k)) :
      Step s (s.set i { P with
        phase := .shell (k (P.ofile.sysClose fd).1)
        ofile := (P.ofile.sysClose fd).2 })
  | dup {i fd : ℕ} {P : Proc} {k : ℤ → Code} (h : s.procs i = some P)
      (hc : P.phase = .shell (.op (.dup fd) k)) :
      Step s (s.set i { P with
        phase := .shell (k (P.ofile.sysDup fd).1)
        ofile := (P.ofile.sysDup fd).2 })
  | openFile {i mode : ℕ} {path : Str} {P : Proc} {k : ℤ → Code} (h : s.procs i = some P)
      (hc : P.phase = .shell (.op (.openFile path mode) k)) :
      Step s (s.set i { P with
        phase := .shell (k (P.ofile.newfd (.opened path mode)).1)
        ofile := (P.ofile.newfd (.opened path mode)).2 })
  | pipe {i : ℕ} {P : Proc} {k : Option (ℕ × ℕ) → Code} (h : s.procs i = some P)
      (hc : P.phase = .shell (.op .pipe k)) :
      Step s { s.set i { P with
        phase := .shell (k (P.ofile.sysPipe s.pipes.length).1)
        ofile := (P.ofile.sysPipe s.pipes.length).2
        pipe := some s.pipes.length } with pipes := s.pipes ++ [P.calls] }
  | fork {i j : ℕ} {P : Proc} {k : ℤ → Code} (h : s.procs i = some P)
      (hc : P.phase = .shell (.op .fork k)) (hj : s.procs j = none) (h0 : 0 < j) :
      Step s ((s.set i { P with phase := .shell (k j) }).set j
        { P with parent := i, phase := .shell (k 0) })
  | wait {i j : ℕ} {P Q : Proc} {k : ℤ → Code} (h : s.procs i = some P)
      (hc : P.phase = .shell (.op .wait k)) (hj : s.procs j = some Q) (hz : Q.phase = .zombie)
      (hp : Q.parent = i) :
      Step s ((s.set i { P with phase := .shell (k j) }).remove j)
  | waitFails {i : ℕ} {P : Proc} {k : ℤ → Code} (h : s.procs i = some P)
      (hc : P.phase = .shell (.op .wait k))
      (hp : ∀ j Q, s.procs j = some Q → Q.parent ≠ i) :
      Step s (s.set i { P with phase := .shell (k (-1)) })
  | runcmd {i : ℕ} {P : Proc} {b : Branch} {cmd : Cmd Str} {k : Empty → Code} {c : Call}
      (h : s.procs i = some P) (hc : P.phase = .shell (.op (.runcmd b cmd) k))
      (hb : b.call P.pipe = some c) :
      Step s (s.set i { P with
        phase := .shell (runcmd cmd), calls := P.calls ++ [c], pipe := none })
  | exec {i : ℕ} {P : Proc} {argv : List Str} {k : Unit → Code} (h : s.procs i = some P)
      (hc : P.phase = .shell (.op (.exec argv) k)) : Step s (s.set i { P with phase := .program })
  | exit {i : ℕ} {P : Proc} {status : ℤ} {k : Empty → Code} (h : s.procs i = some P)
      (hc : P.phase = .shell (.op (.exit status) k)) :
      Step s (s.set i { P with phase := .zombie, ofile := fun _ => none })
  -- A program closes and duplicates descriptors.
  | programMoves {i : ℕ} {P : Proc} {t : Table} (h : s.procs i = some P) (hc : P.phase = .program)
      (ht : ∀ fd f, t fd = some f → ∃ fd', P.ofile fd' = some f) :
      Step s (s.set i { P with ofile := t })
  | programForks {i j : ℕ} {P : Proc} (h : s.procs i = some P) (hc : P.phase = .program)
      (hj : s.procs j = none) (h0 : 0 < j) : Step s (s.set j { P with parent := i })
  | programExits {i : ℕ} {P : Proc} (h : s.procs i = some P) (hc : P.phase = .program) :
      Step s (s.set i { P with phase := .zombie, ofile := fun _ => none })

/-- The shell has forked a process that calls `runcmd(cmd)`, with descriptors 0, 1 and 2 open. -/
def State.start (cmd : Cmd Str) : State where
  procs := Function.update (fun _ => none) 1 (some {
    parent := 0
    phase := .shell (runcmd cmd)
    ofile := fun fd => if fd < 3 then some (.inherited fd) else none
    calls := []
    pipe := none })
  pipes := []

def system (cmd : Cmd Str) : System State := ⟨fun s => s = .start cmd, Step⟩

end Xv6.Sh
