import Xv6.Mkdir.Tree

/-! `mkdir_p` of `user/mkdir.c`, and the system calls that it makes. -/
namespace Xv6.Mkdir

def maxPath : ℕ := 128

/-- What a process sees of the file system and of its own tables: the tree, the current directory, its
open descriptors, and how many files can still be opened and how many directories made. -/
structure State where
  tree : Tree
  cwd : ℕ
  cwd_isDir : tree.isDir cwd = true
  ofile : Finset ℕ
  files : ℕ
  room : ℕ

/-- The lookup of a name in a directory, which compares `DIRSIZ` characters. -/
def lookup (t : Tree) (d : ℕ) (x : Str) : Option ℕ :=
  if x = lit "." then some d
  else if x = lit ".." then some (t.parent d)
  else t.entry d (x.take dirsiz)

/-- The inode of a path of one name; `argstr` fails if it is too long. -/
def namei (s : State) (x : Str) : Option ℕ :=
  if x.length < maxPath then lookup s.tree s.cwd x else none

def fdalloc (ofile : Finset ℕ) : Option ℕ := (List.range nofile).find? fun fd => fd ∉ ofile

def openRdonly (s : State) (x : Str) : Option State :=
  match namei s x with
  | none => none
  | some ip =>
    if s.tree.openable ip = true ∧ 0 < s.files then
      match fdalloc s.ofile with
      | none => none
      | some fd => some { s with ofile := insert fd s.ofile, files := s.files - 1 }
    else none

theorem cwd_addDir (s : State) (x : Str) :
    (s.tree.addDir s.cwd s.cwd_isDir x).isDir s.cwd = true := by
  show Function.update s.tree.isDir s.tree.ialloc true s.cwd = true
  rw [Function.update_of_ne (s.tree.ne_ialloc (s.tree.mem_used _ s.cwd_isDir))]
  exact s.cwd_isDir

def mkdir (s : State) (x : Str) : Option State :=
  if x.length < maxPath ∧ lookup s.tree s.cwd x = none ∧ 0 < s.room then
    some { s with
      tree := s.tree.addDir s.cwd s.cwd_isDir (x.take dirsiz)
      cwd_isDir := cwd_addDir s _
      room := s.room - 1 }
  else none

def chdir (s : State) (x : Str) : Option State :=
  match namei s x with
  | none => none
  | some ip => if h : s.tree.isDir ip = true then some { s with cwd := ip, cwd_isDir := h } else none

def chdirRoot (s : State) : State := { s with cwd := rootIno, cwd_isDir := s.tree.root_isDir }

/-- The body of the loop for one name, if `malloc` has memory for it. The state of a failure is that in
which `mkdir_p` returns. -/
def enter (mem : Bool) (s : State) (directory : Str) : Except State State :=
  if mem = false then .error s
  else
    match openRdonly s directory with
    | some s =>
      match chdir s directory with
      | some s => .ok s
      | none => .error s
    | none =>
      match mkdir s directory with
      | none => .error s
      | some s =>
        match chdir s directory with
        | some s => .ok s
        | none => .error s

/-- The loop over the path from `start` on, with `directory_count` names behind it. -/
def descend (mem : ℕ → Bool) (s : State) (start : Str) (directoryCount : ℕ) :
    Except State (State × ℕ) :=
  match start with
  | [] => .ok (s, directoryCount)
  | c :: rest =>
    if c = 47 then descend mem s rest directoryCount
    else
      match enter (mem directoryCount) s ((c :: rest).takeWhile (· ≠ 47)) with
      | .error s => .error s
      | .ok s => descend mem s (rest.dropWhile (· ≠ 47)) (directoryCount + 1)
termination_by start.length
decreasing_by
  · simp
  · have := (List.dropWhile_sublist (fun x : UInt8 => decide (x ≠ 47)) (l := rest)).length_le
    simp only [List.length_cons]
    omega

def climb : ℕ → State → Except State State
  | 0, s => .ok s
  | n + 1, s =>
    match chdir s (lit "..") with
    | none => .error s
    | some s => climb n s

/-- Whether `mkdir_p` returns 0, and the state in which it returns. -/
def mkdirP (mem : ℕ → Bool) (s : State) (path : Str) : Bool × State :=
  match descend mem (if path.headD 0 = 47 then chdirRoot s else s) path 0 with
  | .error s => (false, s)
  | .ok (s, n) =>
    match climb n s with
    | .error s => (false, s)
    | .ok s => (true, s)

end Xv6.Mkdir
