import Xv6.Lib.Bytes
import Xv6.Lib.Prog

/-! The buffer cache as `fs.c` and `log.c` use it. A buffer is named by the number of its block:
`bread` gives a process at most one locked buffer for a block. -/
namespace Xv6

def bsize : ℕ := 1024

theorem bsize_eq : bsize = 1024 := rfl

abbrev Block : Type := Lib.Bytes bsize

abbrev Disk : Type := ℕ → Block

/-- The value of a C `int` with these 32 bits. -/
def int32 (v : ℕ) : ℤ := (BitVec.ofNat 32 v).toInt

theorem int32_of_lt {v : ℕ} (h : v < 2 ^ 31) : int32 v = v := by
  unfold int32
  rw [BitVec.toInt_eq_toNat_of_lt]
  · simp only [BitVec.toNat_ofNat]
    omega
  · simp only [BitVec.toNat_ofNat]
    omega

namespace Bio

/-- Calls of `bio.c` and `log.c` on a block, assignments to `bp->data` and to `log.lh`. -/
inductive Op where
  | bread (b : ℕ)
  | store (b : ℕ) (data : Block)
  | bwrite (b : ℕ)
  | logWrite (b : ℕ)
  | bunpin (b : ℕ)
  | brelse (b : ℕ)
  | getLh
  | setLh (lh : List ℕ)
  | panic (msg : String)

def interface : Lib.Interface where
  Op := Op
  Result
    | .bread _ => Block
    | .getLh => List ℕ
    | .panic _ => Empty
    | _ => Unit

abbrev Code (α : Type) : Type := Lib.Prog interface α

def bread (b : ℕ) : Code Block := .op (.bread b) .ret

def store (b : ℕ) (data : Block) : Code Unit := .op (.store b data) .ret

def bwrite (b : ℕ) : Code Unit := .op (.bwrite b) .ret

def logWrite (b : ℕ) : Code Unit := .op (.logWrite b) .ret

def bunpin (b : ℕ) : Code Unit := .op (.bunpin b) .ret

def brelse (b : ℕ) : Code Unit := .op (.brelse b) .ret

def getLh : Code (List ℕ) := .op .getLh .ret

def setLh (lh : List ℕ) : Code Unit := .op (.setLh lh) .ret

def panic {α : Type} (msg : String) : Code α := .op (.panic msg) fun e => e.elim

end Bio
end Xv6
