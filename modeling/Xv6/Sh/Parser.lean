import Xv6.Sh.Lexer

/-! The commands of `user/sh.c` and their parser. -/
namespace Xv6.Sh

open Lib

def maxArgs : ℕ := 10

def oRdonly : ℕ := 0x000
def oWronly : ℕ := 0x001
def oCreate : ℕ := 0x200
def oTrunc : ℕ := 0x400

structure Redir (α : Type) where
  file : α
  mode : ℕ
  fd : ℕ
  deriving DecidableEq

/-- A command whose strings are of type `α`: parts of the buffer, or texts. -/
inductive Cmd (α : Type)
  | exec (argv : List α)
  | redir (cmd : Cmd α) (r : Redir α)
  | pipe (left right : Cmd α)
  | list (left right : Cmd α)
  | back (cmd : Cmd α)
  deriving DecidableEq

variable {α β : Type}

def Redir.map (f : α → β) (r : Redir α) : Redir β := ⟨f r.file, r.mode, r.fd⟩

def Cmd.map (f : α → β) : Cmd α → Cmd β
  | exec argv => exec (argv.map f)
  | redir cmd r => redir (cmd.map f) (r.map f)
  | pipe left right => pipe (left.map f) (right.map f)
  | list left right => list (left.map f) (right.map f)
  | back cmd => back (cmd.map f)

/-- The next argument of the `execcmd` that the redirections have been put around. -/
def Cmd.addArg (a : α) : Cmd α → Cmd α
  | exec argv => exec (argv ++ [a])
  | redir cmd r => redir (cmd.addArg a) r
  | cmd => cmd

def Op.redir (file : α) : Op → Option (Redir α)
  | .lt => some ⟨file, oRdonly, 0⟩
  | .gt => some ⟨file, oWronly ||| oCreate ||| oTrunc, 1⟩
  | .gtgt => some ⟨file, oWronly ||| oCreate, 1⟩
  | _ => none

def Ret.redirect (file : α) (cmd : Cmd α) : Ret → Cmd α
  | .op o => (o.redir file).elim cmd cmd.redir
  | _ => cmd

section

variable (t : Text)

def parseredirs : ℕ → Cmd Span → Parser (Cmd Span)
  | 0, _ => throw .fuel
  | fuel + 1, cmd => do
    if ← peek t (lit "<>") then
      let (tok, _) ← gettoken t
      let (file, s) ← gettoken t
      if file ≠ .a then throw (.panic "missing file for redirection")
      else parseredirs fuel (tok.redirect s cmd)
    else return cmd

def parseargs : ℕ → ℕ → Cmd Span → Parser (Cmd Span)
  | 0, _, _ => throw .fuel
  | fuel + 1, argc, ret => do
    if ← peek t (lit "|)&;") then return ret
    else
      let (tok, s) ← gettoken t
      if tok = .nul then return ret
      else if tok ≠ .a then throw (.panic "syntax")
      else if argc + 1 ≥ maxArgs then throw (.panic "too many args")
      else
        let ret ← parseredirs t fuel (ret.addArg s)
        parseargs fuel (argc + 1) ret

def parsebacks : ℕ → Cmd Span → Parser (Cmd Span)
  | 0, _ => throw .fuel
  | fuel + 1, cmd => do
    if ← peek t (lit "&") then
      let _ ← gettoken t
      parsebacks fuel (.back cmd)
    else return cmd

mutual

def parseline : ℕ → Parser (Cmd Span)
  | 0 => throw .fuel
  | fuel + 1 => do
    let cmd ← parsepipe fuel
    let cmd ← parsebacks t fuel cmd
    if ← peek t (lit ";") then
      let _ ← gettoken t
      let right ← parseline fuel
      return .list cmd right
    else return cmd

def parsepipe : ℕ → Parser (Cmd Span)
  | 0 => throw .fuel
  | fuel + 1 => do
    let cmd ← parseexec fuel
    if ← peek t (lit "|") then
      let _ ← gettoken t
      let right ← parsepipe fuel
      return .pipe cmd right
    else return cmd

def parseblock : ℕ → Parser (Cmd Span)
  | 0 => throw .fuel
  | fuel + 1 => do
    if ← peek t (lit "(") then
      let _ ← gettoken t
      let cmd ← parseline fuel
      if ← peek t (lit ")") then
        let _ ← gettoken t
        parseredirs t fuel cmd
      else throw (.panic "syntax - missing )")
    else throw (.panic "parseblock")

def parseexec : ℕ → Parser (Cmd Span)
  | 0 => throw .fuel
  | fuel + 1 => do
    if ← peek t (lit "(") then parseblock fuel
    else
      let ret ← parseredirs t fuel (.exec [])
      parseargs t fuel 0 ret

end

def nulterminate : Cmd Span → List UInt8 → List UInt8
  | .exec argv, buf => argv.foldl (fun buf s => buf.set s.eq 0) buf
  | .redir cmd r, buf => (nulterminate cmd buf).set r.file.eq 0
  | .pipe left right, buf => nulterminate right (nulterminate left buf)
  | .list left right, buf => nulterminate right (nulterminate left buf)
  | .back cmd, buf => nulterminate cmd buf

/-- Four calls for every character and four at the end are enough. -/
def Text.fuel : ℕ := 4 * t.es + 4

def parsecmd : Except Fault (Cmd Span × List UInt8) := do
  let (cmd, s) ← parseline t t.fuel 0
  let (_, s) ← peek t [] s
  if s ≠ t.es then throw (.panic "syntax")
  else return (cmd, nulterminate cmd (t.chars ++ [0]))

end

def cstr (buf : List UInt8) (p : ℕ) : Str := (buf.drop p).takeWhile (· ≠ 0)

end Xv6.Sh
