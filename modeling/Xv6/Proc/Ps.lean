import Xv6.Proc.Args

/-! `ps` and `parsePIDs` of `kernel/proc.c`. -/
namespace Xv6.Proc

def atoiFrom (n : ℤ) : Str → ℤ
  | [] => n
  | c :: cs => if 48 ≤ c ∧ c ≤ 57 then atoiFrom (n * 10 + c.toNat - 48) cs else n

def atoi (s : Str) : ℤ := atoiFrom 0 s

/-- The inner loop of `parsePIDs`: it copies characters to `pidstr` up to a comma or the end, and
gives up once it has copied ten. -/
def scanField : Str → Str → Option (Str × Str)
  | [], pidstr => some (pidstr, [])
  | c :: cs, pidstr =>
    if c = 44 then some (pidstr, c :: cs)
    else if pidstr.length + 1 ≥ 10 then none
    else scanField cs (pidstr ++ [c])

/-- The outer loop, at the characters `args[i..n)` and with `pidsI` numbers stored. -/
def parsePIDsFrom : ℕ → Str → ℕ → (ℕ → ℤ) → Bool × (ℕ → ℤ)
  | 0, _, pidsI, pids => (true, Function.update pids pidsI (-1))
  | _ + 1, [], pidsI, pids => (true, Function.update pids pidsI (-1))
  | fuel + 1, args, pidsI, pids =>
    match scanField args [] with
    | none => (false, pids)
    | some (pidstr, rest) =>
      if pidstr.length = 0 then (false, pids)
      else parsePIDsFrom fuel rest.tail (pidsI + 1) (Function.update pids pidsI (atoi pidstr))

/-- Whether `parsePIDs` returns 0, and memory from `pids` on after the call. -/
def parsePIDs (args : Str) (pids : ℕ → ℤ) : Bool × (ℕ → ℤ) := parsePIDsFrom args.length args 0 pids

def fieldsFrom (field : Str) : Str → List Str
  | [] => if field = [] then [] else [field]
  | c :: s => if c = 44 then field :: fieldsFrom [] s else fieldsFrom (field ++ [c]) s

/-- The fields of a list, which commas separate or end. -/
def fields (list : Str) : List Str := fieldsFrom [] list

/-- How many elements of `pids` the call sets, given the fields (`mem_parsePIDsBuf`). -/
def writes : List Str → ℕ
  | [] => 1
  | f :: fs => if f ≠ [] ∧ f.length ≤ 9 then writes fs + 1 else 0

structure PsOptions where
  onlyRunningProcesses : Bool
  longList : Bool
  pidFilter : Bool
  pids : ℕ → ℤ

/-- A use of `argv[i]` that the kernel has no string for, or a store to `pids[i]` beyond its `NPROC`
elements. -/
inductive ArgvFault where
  | null (i : ℕ)
  | outside (i : ℕ)
  | pids (i : ℕ)
  deriving DecidableEq, Repr

/-- `flags[i]`, given the strings fetched into an array of `MAXARG` pointers. -/
def argvAt (args : List Str) (i : ℕ) : Except ArgvFault Str :=
  if i < maxArg then
    match args[i]? with
    | some s => .ok s
    | none => .error (.null i)
  else .error (.outside i)

def psLoop (args : List Str) (argc : ℤ) : ℕ → ℕ → PsOptions → Except ArgvFault PsOptions
  | 0, _, o => .ok o
  | fuel + 1, i, o =>
    if (i : ℤ) < argc then do
      let flag ← argvAt args i
      if strncmp (lit "r") flag 1 = 0 then
        psLoop args argc fuel (i + 1) { o with onlyRunningProcesses := true }
      else if strncmp (lit "-l") flag 2 = 0 then
        psLoop args argc fuel (i + 1) { o with longList := true }
      else if strncmp (lit "-p") flag 2 = 0 then do
        let list ← argvAt args (i + 1)
        if nproc < writes (fields list) then .error (.pids nproc)
        else
          let (ok, pids) := parsePIDs list o.pids
          psLoop args argc fuel (i + 2) { o with pidFilter := o.pidFilter || ok, pids := pids }
      else psLoop args argc fuel (i + 1) o
    else .ok o

inductive ProcState where
  | unused | used | sleeping | runnable | running | zombie
  deriving DecidableEq, Repr

structure ProcEntry where
  state : ProcState
  pid : ℤ
  ppid : Option ℤ
  kstack : ℕ
  sz : ℕ
  name : Str

inductive PsLine where
  | header (long : Bool)
  | short (pid : ℤ) (name : Str)
  | long (pid ppid : ℤ) (kstack : ℕ) (state : ProcState) (sz : ℕ) (name : Str)

/-- The search of `pids` up to the terminating -1, within the array. -/
def pidListed (pids : ℕ → ℤ) (pid : ℤ) : ℕ → ℕ → Bool
  | 0, _ => false
  | fuel + 1, i =>
    if pids i = -1 then false
    else if pid = pids i then true
    else pidListed pids pid fuel (i + 1)

def psLines (o : PsOptions) (table : List ProcEntry) : List PsLine :=
  .header o.longList :: (table.filter fun p =>
      p.state ≠ .unused ∧ (p.state = .running ∨ o.onlyRunningProcesses = false) ∧
        (o.pidFilter = true → pidListed o.pids p.pid nproc 0 = true)).map fun p =>
    if o.longList then .long p.pid (p.ppid.getD 0) p.kstack p.state p.sz p.name
    else .short p.pid p.name

/-- What `ps` prints, or the faulting use of `argv`; `pids` is the uninitialised array. -/
def ps (table : List ProcEntry) (pids : ℕ → ℤ) (argc : ℤ) (args : List Str) :
    Except ArgvFault (List PsLine) := do
  let o ← psLoop args argc argc.toNat 1 ⟨false, false, false, pids⟩
  .ok (psLines o table)

/-- `sys_ps` with its two argument registers: `none` is the return value -1. -/
def sysPs (table : List ProcEntry) (pids : ℕ → ℤ) (u : Vm.UserMem) (kalloc : ℕ → Bool)
    (a0 a1 : BitVec 64) : Except ArgvFault (Option (List PsLine)) :=
  match fetchArgv u kalloc a1.toNat with
  | none => .ok none
  | some args => (ps table pids (argint a0) args).map some

end Xv6.Proc
