import Xv6.Log.Commit
import Xv6.Log.Protocol

/-! The log as a machine that may lose its memory at any time. Critical sections of `log.lock` are
single steps here, and the buffer cache is the contents that `bread` returns. -/
namespace Xv6.Log

open Bio Lib

/-- The disk, and what a crash loses: block contents in memory, the buffers that the process in
`commit` has locked, the pinned buffers, and `struct log`. -/
structure Mem where
  disk : Disk
  cache : Disk
  held : ℕ → Bool
  pins : ℕ → Bool
  log : Log

def Mem.cold (size : ℕ) (disk : Disk) : Mem where
  disk := disk
  cache := disk
  held _ := false
  pins _ := false
  log := ⟨size, 0, false, []⟩

/-- After the critical section of `log_write` for block `b`. -/
def Mem.logged (m : Mem) (b : ℕ) (l : Log) (pin : Bool) : Mem :=
  { m with log := l, pins := if pin then Function.update m.pins b true else m.pins }

/-- One call. A second `bread` of a locked block would sleep for ever. -/
def interp : Interp Bio.interface Mem
  | .bread b, m =>
    if m.held b then .error "deadlock"
    else .ok (m.cache b, { m with held := Function.update m.held b true })
  | .store b data, m =>
    if m.held b then .ok ((), { m with cache := Function.update m.cache b data })
    else .error "store"
  | .bwrite b, m =>
    if m.held b then .ok ((), { m with disk := Function.update m.disk b (m.cache b) })
    else .error "bwrite"
  | .logWrite b, m =>
    match Log.logWrite m.log b with
    | .error msg => .error msg
    | .ok (l, pin) => .ok ((), m.logged b l pin)
  | .bunpin b, m =>
    if m.pins b then .ok ((), { m with pins := Function.update m.pins b false })
    else .error "bunpin"
  | .brelse b, m =>
    if m.held b then .ok ((), { m with held := Function.update m.held b false })
    else .error "brelse"
  | .getLh, m => .ok (m.log.lh, m)
  | .setLh lh, m => .ok ((), { m with log := { m.log with lh := lh } })
  | .panic msg, _ => .error msg

/-- Whether a call of `commit` or of `recover_from_log` is under way, and what is left of it. -/
inductive Phase where
  | running
  | commit (rest : Code Unit)
  | recover (rest : Code Unit)

/-- `before` are the blocks as the last finished transaction left them, and `txn` the contents
recorded since then. -/
structure CrashState where
  mem : Mem
  phase : Phase
  before : Disk
  txn : List (ℕ × Block)

def apply (txn : List (ℕ × Block)) (d : Disk) : Disk :=
  txn.foldl (fun d u => Function.update d u.1 u.2) d

def CrashState.after (s : CrashState) : Disk := apply s.txn s.before

/-- The home blocks with the log of a disk installed. -/
def replayFrom (G : Geometry) : ℕ → List ℕ → Disk → Disk
  | _, [], d => d
  | tail, b :: lh, d => replayFrom G (tail + 1) lh (Function.update d b (d (G.start + tail + 1)))

def replay (G : Geometry) (d : Disk) : Disk := replayFrom G 0 (readHeader (d G.start)) d

/-- The header of a disk lists home blocks, and not more of them than the log has room for. -/
structure Sound (G : Geometry) (d : Disk) : Prop where
  home : ∀ b ∈ readHeader (d G.start), G.Home b
  fits : (readHeader (d G.start)).length + 1 ≤ G.size
  short : (readHeader (d G.start)).length ≤ logSize

/-- The header of a disk says that nothing is committed. -/
def Cleared (G : Geometry) (d : Disk) : Prop := (d G.start).getLE 0 4 = 0

def CrashState.boot (G : Geometry) (d : Disk) : CrashState where
  mem := .cold G.size d
  phase := .recover (recoverFromLog G)
  before := replay G d
  txn := []

inductive CrashStep (G : Geometry) : CrashState → CrashState → Prop
  /-- `begin_op` admits an operation. -/
  | beginOp {s} (hp : s.phase = .running) (h : s.mem.log.mustWait = false) :
      CrashStep G s { s with mem := { s.mem with
        log := { s.mem.log with outstanding := s.mem.log.outstanding + 1 } } }
  /-- An operation changes a block and records it. -/
  | write {s} (b : ℕ) (c : Block) (l : Log) (pin : Bool) (hp : s.phase = .running)
      (hb : G.Home b) (h32 : b < 2 ^ 32) (h : Log.logWrite s.mem.log b = .ok (l, pin)) :
      CrashStep G s { s with
        mem := { s.mem with cache := Function.update s.mem.cache b c }.logged b l pin
        txn := s.txn ++ [(b, c)] }
  | endOp {s} (l : Log) (hp : s.phase = .running)
      (h : Log.endOp s.mem.log = .ok (l, false)) :
      CrashStep G s { s with mem := { s.mem with log := l } }
  | endLast {s} (l : Log) (hp : s.phase = .running)
      (h : Log.endOp s.mem.log = .ok (l, true)) :
      CrashStep G s { s with mem := { s.mem with log := l }, phase := .commit (commit G) }
  | commit {s} (p q : Code Unit) (m : Mem) (hp : s.phase = .commit p)
      (h : Prog.Step interp.semantics (p, s.mem) (q, m)) :
      CrashStep G s { s with mem := m, phase := .commit q }
  | committed {s} (hp : s.phase = .commit (.ret ())) :
      CrashStep G s { s with
        mem := { s.mem with log := { s.mem.log with committing := false } }
        phase := .running, before := s.after, txn := [] }
  /-- Power fails; the machine comes up again with the disk as it is. -/
  | crash {s} : CrashStep G s { s with
      mem := .cold G.size s.mem.disk, phase := .recover (recoverFromLog G) }
  | recover {s} (p q : Code Unit) (m : Mem) (hp : s.phase = .recover p)
      (h : Prog.Step interp.semantics (p, s.mem) (q, m)) :
      CrashStep G s { s with mem := m, phase := .recover q }
  | recovered {s} (hp : s.phase = .recover (.ret ())) :
      CrashStep G s { s with phase := .running, before := s.mem.disk, txn := [] }

/-- The log on a disk with any contents and a header that recovery can read. -/
def crashes (G : Geometry) : System CrashState where
  init s := ∃ d, Sound G d ∧ s = .boot G d
  step := CrashStep G

end Xv6.Log
