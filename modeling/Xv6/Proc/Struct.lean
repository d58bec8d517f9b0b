import Xv6.Lib.Bytes
import Xv6.Proc.Ps

/-! `struct proc` of `kernel/proc.h`, without the lock, the kernel stack and the saved context. -/
namespace Xv6

open Lib Proc

/-- Open files are numbers of entries of the file table and `cwd` is an entry of the inode table;
pages are given by their addresses, and 0 is the null pointer. -/
structure Proc where
  state : ProcState
  chan : ℕ
  killed : ℤ
  xstate : ℤ
  pid : ℕ
  parent : Option ℕ
  sz : ℕ
  pagetable : ℕ
  trapframe : ℕ
  ofile : Fin nofile → Option ℕ
  cwd : Option ℕ
  name : Bytes 16

namespace Proc

/-- `safestrcpy` to an array of 16 bytes. After a terminating NUL that was copied one more is
written. -/
def safestrcpy (s : Bytes 16) (t : Str) : Bytes 16 := s.blit 0 ((t ++ [0]).take 15 ++ [0])

/-- A process without memory, before it has a page table. -/
def bareProc : Proc where
  state := .running
  chan := 0
  killed := 0
  xstate := 0
  pid := 1
  parent := none
  sz := 0
  pagetable := 0
  trapframe := 0x80022000
  ofile _ := none
  cwd := none
  name _ := 0

/-! Offsets in `struct trapframe`. -/

def tfEpc : ℕ := 24

def tfSp : ℕ := 48

def tfA1 : ℕ := 120

end Proc

end Xv6
