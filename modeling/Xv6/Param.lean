import Mathlib.Tactic

/-! Constants of `kernel/param.h` and `kernel/fs.h`, and the log size that `mkfs/mkfs.c` chooses. -/
namespace Xv6

/-- Blocks that one file system operation may write. -/
def maxOpBlocks : ℕ := 10

/-- Data blocks in the on-disk log, as `begin_op` counts them. -/
def logSize : ℕ := maxOpBlocks * 3

/-- Blocks that mkfs gives to the log, the header block included: `sb.nlog`, hence `log.size`. -/
def nlog : ℕ := logSize

/-- Buffers in the disk block cache. -/
def nbuf : ℕ := maxOpBlocks * 3

def nproc : ℕ := 64

def nofile : ℕ := 16

/-- Maximum number of exec arguments. -/
def maxArg : ℕ := 32

def rootIno : ℕ := 1

def dirsiz : ℕ := 14

@[simp] theorem maxOpBlocks_eq : maxOpBlocks = 10 := rfl

@[simp] theorem logSize_eq : logSize = 30 := rfl

@[simp] theorem nlog_eq : nlog = 30 := rfl

@[simp] theorem nproc_eq : nproc = 64 := rfl

@[simp] theorem maxArg_eq : maxArg = 32 := rfl

theorem dirsiz_eq : dirsiz = 14 := rfl

end Xv6
