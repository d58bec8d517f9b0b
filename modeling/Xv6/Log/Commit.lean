import Xv6.Bio.Interface
import Xv6.Param

/-! `commit` and `recover_from_log` of `kernel/log.c`, and the header block they read and write. -/
namespace Xv6.Log

open Bio

structure Geometry where
  start : ℕ
  size : ℕ

/-- The blocks the log is a log of. -/
def Geometry.Home (G : Geometry) (b : ℕ) : Prop := b < G.start ∨ G.start + G.size ≤ b

instance (G : Geometry) (b : ℕ) : Decidable (G.Home b) := inferInstanceAs (Decidable (_ ∨ _))

/-- `block[0..n)` of the `struct logheader` in a block. -/
def readHeader (c : Block) : List ℕ :=
  (List.range (int32 (c.getLE 0 4)).toNat).map fun i => c.getLE (4 + 4 * i) 4

def writeHeader (lh : List ℕ) (c : Block) : Block := (c.setLE 0 4 lh.length).setWords 4 lh

variable (G : Geometry)

/-- The loop of `install_trans` from index `tail` on, with the rest of `log.lh.block`. -/
def installTransFrom (recovering : Bool) : ℕ → List ℕ → Code Unit
  | _, [] => return
  | tail, b :: lh => do
    let lbuf ← bread (G.start + tail + 1)
    let _ ← bread b
    store b lbuf
    bwrite b
    if recovering = false then bunpin b
    brelse (G.start + tail + 1)
    brelse b
    installTransFrom recovering (tail + 1) lh

def installTrans (recovering : Bool) : Code Unit := do
  installTransFrom G recovering 0 (← getLh)

def readHead : Code Unit := do
  let buf ← bread G.start
  setLh (readHeader buf)
  brelse G.start

def writeHead : Code Unit := do
  let buf ← bread G.start
  store G.start (writeHeader (← getLh) buf)
  bwrite G.start
  brelse G.start

def recoverFromLog : Code Unit := do
  readHead G
  installTrans G true
  setLh []
  writeHead G

def writeLogFrom : ℕ → List ℕ → Code Unit
  | _, [] => return
  | tail, b :: lh => do
    let _ ← bread (G.start + tail + 1)
    let «from» ← bread b
    store (G.start + tail + 1) «from»
    bwrite (G.start + tail + 1)
    brelse b
    brelse (G.start + tail + 1)
    writeLogFrom (tail + 1) lh

def writeLog : Code Unit := do
  writeLogFrom G 0 (← getLh)

def commit : Code Unit := do
  let lh ← getLh
  if lh.length > 0 then
    writeLog G
    writeHead G
    installTrans G false
    setLh []
    writeHead G

end Xv6.Log
