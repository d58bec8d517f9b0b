import Xv6.Fs.FlatFile
import Xv6.Proc.Struct
import Xv6.Vm.Uvm

/-! `kernel/exec.c`. -/
namespace Xv6.Exec

open Lib Vm Proc

def field (l : List UInt8) (off w : ℕ) : ℕ := leValue ((l.drop off).take w)

/-- The fields of `struct elfhdr` that `exec` uses. -/
structure Elfhdr where
  magic : ℕ
  entry : ℕ
  phoff : ℕ
  phnum : ℕ

def Elfhdr.ofBytes (l : List UInt8) : Elfhdr := ⟨field l 0 4, field l 24 8, field l 32 8, field l 56 2⟩

def elfhdrSize : ℕ := 64

/-- The fields of `struct proghdr` that `exec` uses. -/
structure Proghdr where
  type : ℕ
  flags : ℕ
  off : ℕ
  vaddr : ℕ
  filesz : ℕ
  memsz : ℕ
  deriving DecidableEq

def Proghdr.ofBytes (l : List UInt8) : Proghdr :=
  ⟨field l 0 4, field l 4 4, field l 8 8, field l 16 8, field l 32 8, field l 40 8⟩

def proghdrSize : ℕ := 56

def elfMagic : ℕ := 0x464C457F

def elfProgLoad : ℕ := 1

def flags2perm (flags : ℕ) : ℕ :=
  (if flags &&& 1 ≠ 0 then pteX else 0) ||| (if flags &&& 2 ≠ 0 then pteW else 0)

/-- The files as `exec` sees them: which inode a path leads to, and its contents, which do not change
while the inode is locked. -/
structure Files where
  namei : Str → Option ℕ
  content : ℕ → List UInt8
  size_lt : ∀ ip, (content ip).length < 2 ^ 32

/-- Calls into the file system for the inode of the program. -/
inductive FsCall where
  | beginOp
  | ilock (ip : ℕ)
  | iunlockput (ip : ℕ)
  | endOp
  deriving DecidableEq, Repr

/-- Memory, the calling process and the calls that were made. -/
structure State where
  kmem : Kmem
  proc : Proc
  calls : List FsCall

abbrev Sys : Type → Type := StateT State (Except String)

def kern {α : Type} (x : Kern α) : Sys α := fun s =>
  match x s.kmem with
  | .ok (a, m) => .ok (a, { s with kmem := m })
  | .error e => .error e

def call (c : FsCall) : Sys Unit := fun s => .ok ((), { s with calls := s.calls ++ [c] })

def myproc : Sys Proc := fun s => .ok (s.proc, s)

def setProc (p : Proc) : Sys Unit := fun s => .ok ((), { s with proc := p })

section Load

variable (L : Layout) (c : List UInt8)

/-- The loop of `loadseg`, which makes at most `fuel` rounds; `false` is -1. The numbers are `uint`s
but for `va`. -/
def loadsegLoop (pagetable va offset sz : ℕ) : ℕ → ℕ → Kern Bool
  | 0, _ => return true
  | fuel + 1, i =>
    if i < sz then do
      let pa ← walkaddr pagetable ((va + i) % 2 ^ 64)
      if pa = 0 then throw "loadseg: address should exist"
      else
        let n := if sz - i < pgSize then sz - i else pgSize
        let bytes := Fs.flatRead c ((offset + i) % 2 ^ 32) n
        storeBytes pa 0 bytes
        if bytes.length ≠ n then return false
        else loadsegLoop pagetable va offset sz fuel ((i + pgSize) % 2 ^ 32)
    else return true

def loadseg (pagetable va offset sz : ℕ) : Kern Bool :=
  loadsegLoop c pagetable va offset sz ((sz + (pgSize - 1)) / pgSize) 0

/-- The loop of `exec` over the program headers: how many are left, `off`, which is an `int` that is
passed on as a `uint`, and `sz`. With `false` it goes to `bad`. -/
def loadLoop (pagetable : ℕ) : ℕ → ℕ → ℕ → Kern (Bool × ℕ)
  | 0, _, sz => return (true, sz)
  | k + 1, off, sz => do
    let bytes := Fs.flatRead c off proghdrSize
    let ph := Proghdr.ofBytes bytes
    if bytes.length ≠ proghdrSize then return (false, sz)
    else if ph.type ≠ elfProgLoad then loadLoop pagetable k ((off + proghdrSize) % 2 ^ 32) sz
    else if ph.memsz < ph.filesz then return (false, sz)
    else if (ph.vaddr + ph.memsz) % 2 ^ 64 < ph.vaddr then return (false, sz)
    else if ph.vaddr % pgSize ≠ 0 then return (false, sz)
    else
      let sz1 ← uvmalloc L pagetable sz ((ph.vaddr + ph.memsz) % 2 ^ 64) (flags2perm ph.flags)
      if sz1 = 0 then return (false, sz)
      else if ← loadseg c pagetable ph.vaddr (ph.off % 2 ^ 32) (ph.filesz % 2 ^ 32) then
        loadLoop pagetable k ((off + proghdrSize) % 2 ^ 32) sz1
      else return (false, sz1)

end Load

def sub64 (a b : ℕ) : ℕ := (a + (2 ^ 64 - b % 2 ^ 64)) % 2 ^ 64

/-- Strings are pushed down to `stackbase`: `sp` and `ustack` in the end, or `none` to go to `bad`. -/
def pushStrings (pagetable stackbase : ℕ) : List Str → ℕ → List ℕ → Kern (Option (ℕ × List ℕ))
  | [], sp, ustack => return some (sp, ustack)
  | s :: argv, sp, ustack => do
    let sp := sub64 sp (s.length + 1)
    let sp := sp - sp % 16
    if maxArg ≤ ustack.length then return none
    else if sp < stackbase then return none
    else if ← copyoutBytes pagetable sp (s ++ [0]) then
      pushStrings pagetable stackbase argv sp (ustack ++ [sp])
    else return none

/-- The strings and the array of pointers to them. -/
def pushArgs (pagetable stackbase : ℕ) (argv : List Str) (sp : ℕ) : Kern (Option ℕ) := do
  match ← pushStrings pagetable stackbase argv sp [] with
  | none => return none
  | some (sp, ustack) =>
    let sp := sub64 sp ((ustack.length + 1) * 8)
    let sp := sp - sp % 16
    if sp < stackbase then return none
    else if ← copyoutBytes pagetable sp ((ustack ++ [0]).flatMap (leBytes 8)) then return some sp
    else return none

/-- The part of the path after the last slash; `last` is what it is so far. -/
def lastElement (last : Str) : Str → Str
  | [] => last
  | x :: s => if x = 47 then lastElement s s else lastElement last s

def setTrapframe (trapframe off x : ℕ) : Kern Unit := fun m =>
  .ok ((), m.setPage trapframe ((m.page trapframe).setLE off 8 x))

section Exec

variable (L : Layout)

/-- The label `bad`; `ip` is null after the inode was released, `pagetable` before there is one. -/
def bad (ip : Option ℕ) (pagetable sz : ℕ) : Sys (Option ℕ) := do
  if pagetable ≠ 0 then kern (procFreepagetable L pagetable sz)
  match ip with
  | none => return none
  | some ip =>
    call (.iunlockput ip)
    call .endOp
    return none

/-- `exec` can no longer fail: the process gets the new image, and the old one is freed. -/
def commit (path : Str) (entry pagetable sz sp : ℕ) : Sys Unit := do
  let p ← myproc
  kern (setTrapframe p.trapframe tfA1 sp)
  setProc { p with
    name := safestrcpy p.name (lastElement path path), pagetable := pagetable, sz := sz }
  kern (setTrapframe p.trapframe tfEpc entry)
  kern (setTrapframe p.trapframe tfSp sp)
  kern (procFreepagetable L p.pagetable p.sz)

def execStack (path : Str) (argv : List Str) (entry pagetable sz : ℕ) : Sys (Option ℕ) := do
  let sz := pgRoundUp sz
  let sz1 ← kern (uvmalloc L pagetable sz ((sz + 2 * pgSize) % 2 ^ 64) pteW)
  if sz1 = 0 then bad L none pagetable sz
  else
    kern (uvmclear pagetable (sz1 - 2 * pgSize))
    match ← kern (pushArgs pagetable (sz1 - pgSize) argv sz1) with
    | none => bad L none pagetable sz1
    | some sp =>
      commit L path entry pagetable sz1 sp
      return some argv.length

/-- `exec`; `none` is -1. -/
def exec (fs : Files) (path : Str) (argv : List Str) : Sys (Option ℕ) := do
  call .beginOp
  match fs.namei path with
  | none =>
    call .endOp
    return none
  | some ip =>
    call (.ilock ip)
    let bytes := Fs.flatRead (fs.content ip) 0 elfhdrSize
    let elf := Elfhdr.ofBytes bytes
    if bytes.length ≠ elfhdrSize then bad L (some ip) 0 0
    else if elf.magic ≠ elfMagic then bad L (some ip) 0 0
    else
      let p ← myproc
      match ← kern (procPagetable L p.trapframe) with
      | none => bad L (some ip) 0 0
      | some pagetable =>
        let (ok, sz) ← kern (loadLoop L (fs.content ip) pagetable elf.phnum (elf.phoff % 2 ^ 32) 0)
        if ok then
          call (.iunlockput ip)
          call .endOp
          execStack L path argv elf.entry pagetable sz
        else bad L (some ip) pagetable sz

end Exec

end Xv6.Exec
