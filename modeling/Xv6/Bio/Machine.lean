import Xv6.Bio.Cache
import Xv6.Log.Machine

/-! Processes that run code on the buffer cache, one of them `commit`. A step is a critical section
of `bcache.lock` or of `log.lock`, the acquisition of a buffer's sleep lock, a transfer from or to
the disk, or an access to a locked buffer. -/
namespace Xv6.Bio

open Log (Geometry)

/-- Where a process is: `locking` is in `bget` before `acquiresleep`, `filling` in `bread` after
`bget`, and `releasing` in `brelse` after `releasesleep`. -/
inductive Pc where
  | idle
  | run (rest : Code Unit)
  | locking (i : Fin nbuf) (b : ℕ) (k : Block → Code Unit)
  | filling (i : Fin nbuf) (b : ℕ) (k : Block → Code Unit)
  | releasing (i : Fin nbuf) (rest : Code Unit)

/-- `owner` are the holders of the buffers' sleep locks and `committer` the process in `commit`.
The last three fields but one are history: the buffers an operation has changed since it last
recorded them, whether one was released in that state, and the contents last recorded. -/
structure Kernel (N : ℕ) where
  disk : Disk
  bcache : Bcache
  owner : Fin nbuf → Option (Fin N)
  log : Log
  pc : Fin N → Pc
  committer : Option (Fin N)
  dirty : Fin nbuf → Bool
  leaked : Bool
  logged : ℕ → Block
  panicked : Option String

namespace Kernel

variable {N : ℕ}

def goto (s : Kernel N) (p : Fin N) (c : Pc) : Kernel N :=
  { s with pc := Function.update s.pc p c }

/-- Process `p` has locked buffer `i` for block `b`. -/
def Holds (s : Kernel N) (p : Fin N) (i : Fin nbuf) (b : ℕ) : Prop :=
  s.owner i = some p ∧ s.bcache.Names i rootDev b

def setData (s : Kernel N) (i : Fin nbuf) (c : Block) : Kernel N :=
  { s with bcache := s.bcache.set i { s.bcache.buf i with data := c } }

end Kernel

/-- `client` are the pieces of code that processes may run besides `commit`. They write no block of
the log. -/
inductive Step {N : ℕ} (G : Geometry) (client : Code Unit → Prop) : Kernel N → Kernel N → Prop
  | beginOp {s} (p) (h : s.pc p = .idle) (hw : s.log.mustWait = false) :
      Step G client s { s with log := { s.log with outstanding := s.log.outstanding + 1 } }
  | endOp {s} (p l) (h : s.pc p = .idle) (he : Log.endOp s.log = .ok (l, false)) :
      Step G client s { s with log := l }
  | endLast {s} (p l) (h : s.pc p = .idle) (he : Log.endOp s.log = .ok (l, true)) :
      Step G client s { s.goto p (.run (Log.commit G)) with log := l, committer := some p }
  | endPanic {s} (p msg) (h : s.pc p = .idle) (he : Log.endOp s.log = .error msg) :
      Step G client s { s with panicked := some msg }
  | committed {s} (p) (h : s.pc p = .run (.ret ())) (hc : s.committer = some p) :
      Step G client s { s.goto p .idle with
        log := { s.log with committing := false }, committer := none }
  | call {s} (p prog) (h : s.pc p = .idle) (hc : client prog) :
      Step G client s (s.goto p (.run prog))
  | ret {s} (p) (h : s.pc p = .run (.ret ())) (hc : s.committer ≠ some p) :
      Step G client s (s.goto p .idle)
  | bget {s} (p b k i c) (h : s.pc p = .run (.op (.bread b) k))
      (hg : s.bcache.bget rootDev b = .ok (i, c)) :
      Step G client s { s.goto p (.locking i b k) with bcache := c }
  | bgetPanic {s} (p b k msg) (h : s.pc p = .run (.op (.bread b) k))
      (hg : s.bcache.bget rootDev b = .error msg) :
      Step G client s { s with panicked := some msg }
  | acquiresleep {s} (p i b k) (h : s.pc p = .locking i b k) (ho : s.owner i = none) :
      Step G client s { s.goto p (.filling i b k) with owner := Function.update s.owner i (some p) }
  | breadValid {s} (p i b k) (h : s.pc p = .filling i b k) (hv : (s.bcache.buf i).valid = true) :
      Step G client s (s.goto p (.run (k (s.bcache.buf i).data)))
  | breadDisk {s} (p i b k) (h : s.pc p = .filling i b k) (hv : (s.bcache.buf i).valid = false) :
      Step G client s { s.goto p (.run (k (s.disk b))) with
        bcache := s.bcache.set i { s.bcache.buf i with valid := true, data := s.disk b } }
  | store {s} (p b c k i) (h : s.pc p = .run (.op (.store b c) k)) (hc : s.committer ≠ some p)
      (hi : s.Holds p i b) (hb : G.Home b ∧ b < 2 ^ 32) :
      Step G client s { (s.goto p (.run (k ()))).setData i c with
        dirty := Function.update s.dirty i true }
  | commitStore {s} (p b c k i) (h : s.pc p = .run (.op (.store b c) k)) (hc : s.committer = some p)
      (hi : s.Holds p i b) :
      Step G client s ((s.goto p (.run (k ()))).setData i c)
  | bwrite {s} (p b k i) (h : s.pc p = .run (.op (.bwrite b) k)) (hc : s.committer = some p)
      (hi : s.Holds p i b) :
      Step G client s { s.goto p (.run (k ())) with
        disk := Function.update s.disk b (s.bcache.buf i).data }
  | logWrite {s} (p b k i l pin) (h : s.pc p = .run (.op (.logWrite b) k))
      (hc : s.committer ≠ some p) (hi : s.Holds p i b) (hb : G.Home b ∧ b < 2 ^ 32)
      (hw : Log.logWrite s.log b = .ok (l, pin)) :
      Step G client s { s.goto p (.run (k ())) with
        log := l
        bcache := if pin then s.bcache.bpin i else s.bcache
        dirty := Function.update s.dirty i false
        logged := Function.update s.logged b (s.bcache.buf i).data }
  | logWritePanic {s} (p b k msg) (h : s.pc p = .run (.op (.logWrite b) k))
      (hw : Log.logWrite s.log b = .error msg) :
      Step G client s { s with panicked := some msg }
  | bunpin {s} (p b k i) (h : s.pc p = .run (.op (.bunpin b) k)) (hc : s.committer = some p)
      (hi : s.Holds p i b) :
      Step G client s { s.goto p (.run (k ())) with bcache := s.bcache.bunpin i }
  | releasesleep {s} (p b k i) (h : s.pc p = .run (.op (.brelse b) k)) (hi : s.Holds p i b) :
      Step G client s { s.goto p (.releasing i (k ())) with
        owner := Function.update s.owner i none
        dirty := Function.update s.dirty i false
        leaked := s.leaked || s.dirty i }
  | brelsePanic {s} (p b k) (h : s.pc p = .run (.op (.brelse b) k)) (hi : ∀ i, ¬s.Holds p i b) :
      Step G client s { s with panicked := some "brelse" }
  | brelse {s} (p i rest) (h : s.pc p = .releasing i rest) :
      Step G client s { s.goto p (.run rest) with bcache := s.bcache.brelse i }
  | getLh {s} (p k) (h : s.pc p = .run (.op .getLh k)) (hc : s.committer = some p) :
      Step G client s (s.goto p (.run (k s.log.lh)))
  | setLh {s} (p lh k) (h : s.pc p = .run (.op (.setLh lh) k)) (hc : s.committer = some p) :
      Step G client s { s.goto p (.run (k ())) with log := { s.log with lh := lh } }
  | panic {s} (p msg k) (h : s.pc p = .run (.op (.panic msg) k)) :
      Step G client s { s with panicked := some msg }

/-- A file system in use: the log is empty, no buffer is referenced, and what is cached is what is
on the disk. -/
structure Initial {N : ℕ} (G : Geometry) (s : Kernel N) : Prop where
  log : s.log = ⟨G.size, 0, false, []⟩
  size : 1 ≤ G.size
  cleared : Log.Cleared G s.disk
  owner : ∀ i, s.owner i = none
  pc : ∀ p, s.pc p = .idle
  committer : s.committer = none
  dirty : ∀ i, s.dirty i = false
  leaked : s.leaked = false
  panicked : s.panicked = none
  lru : ∀ i, i ∈ s.bcache.lru
  refcnt : ∀ i, (s.bcache.buf i).refcnt = 0
  unique : ∀ i j b, s.bcache.Names i rootDev b → s.bcache.Names j rootDev b → i = j
  coherent : ∀ i, (s.bcache.buf i).valid = true → (s.bcache.buf i).dev = rootDev →
    (s.bcache.buf i).data = s.disk (s.bcache.buf i).blockno

/-- Nothing moves once the kernel has panicked. -/
def machine (N : ℕ) (G : Geometry) (client : Code Unit → Prop) : Lib.System (Kernel N) where
  init := Initial G
  step s t := s.panicked = none ∧ Step G client s t

end Xv6.Bio
