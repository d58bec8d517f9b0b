import Xv6.Lib.System
import Xv6.Param

/-! Process ids over whole runs: `allocpid`, `allocproc`, `fork`, `exit` and `wait` of `kernel/proc.c` and
the sleep-locks of `kernel/sleeplock.c`, which name their holder by its pid. A step is what one process
does while it holds the locks of what it changes. -/
namespace Xv6.Pids

open Lib

abbrev Slot := Fin nproc

/-- `enum procstate`, where `active` is SLEEPING, RUNNABLE or RUNNING. -/
inductive ProcState
  | unused
  | used
  | active
  | zombie
  deriving DecidableEq

structure Proc where
  state : ProcState
  pid : BitVec 32
  parent : Option Slot

def freed : Proc := ⟨.unused, 0, none⟩

/-- A call of `fork` that has its child and its `pid`; `ready` when the child is RUNNABLE. -/
structure Fork where
  np : Slot
  pid : BitVec 32
  ready : Bool

structure Sleeplock where
  locked : Bool
  pid : BitVec 32

/-- The kernel, with the calls of `fork` in progress. `allocated` counts the calls of `allocpid` after
`userinit` and `holder` says which process has a sleep-lock; the code has neither. -/
structure Kernel (L : Type) where
  nextpid : BitVec 32
  proc : Slot → Proc
  fork : Slot → Option Fork
  lock : L → Sleeplock
  allocated : ℕ
  holder : L → Option Slot

variable {L : Type}

def holdingsleep (s : Kernel L) (lk : L) (p : Slot) : Bool :=
  (s.lock lk).locked && decide ((s.lock lk).pid = (s.proc p).pid)

theorem nproc_pos : 0 < nproc := by decide

theorem one_lt_nproc : 1 < nproc := by decide

def initproc : Slot := ⟨0, nproc_pos⟩

/-- `exit` of `p`: its children go to `initproc`, and it becomes a zombie. -/
def exited (proc : Slot → Proc) (p : Slot) : Slot → Proc := fun j =>
  if j = p then { proc j with state := .zombie }
  else if (proc j).parent = some p then { proc j with parent := some initproc }
  else proc j

inductive Step [DecidableEq L] : Kernel L → Kernel L → Prop
  | allocproc {s} (p np : Slot) (hp : (s.proc p).state = .active) (hf : s.fork p = none)
      (hu : (s.proc np).state = .unused) :
      Step s { s with
        nextpid := s.nextpid + 1
        proc := Function.update s.proc np { s.proc np with state := .used, pid := s.nextpid }
        fork := Function.update s.fork p (some ⟨np, s.nextpid, false⟩)
        allocated := s.allocated + 1 }
  | forkFail {s} (p : Slot) (f : Fork) (h : s.fork p = some f) (hr : f.ready = false) :
      Step s { s with
        proc := Function.update s.proc f.np freed
        fork := Function.update s.fork p none }
  | forkReady {s} (p : Slot) (f : Fork) (h : s.fork p = some f) (hr : f.ready = false) :
      Step s { s with
        proc := Function.update s.proc f.np { s.proc f.np with state := .active, parent := some p }
        fork := Function.update s.fork p (some { f with ready := true }) }
  | forkReturn {s} (p : Slot) (f : Fork) (h : s.fork p = some f) (hr : f.ready = true) :
      Step s { s with fork := Function.update s.fork p none }
  -- a process has released its sleep-locks when it gets to the end of `exit`
  | exit {s} (p : Slot) (hp : (s.proc p).state = .active) (hf : s.fork p = none) (hi : p ≠ initproc)
      (hl : ∀ lk, s.holder lk ≠ some p) :
      Step s { s with proc := exited s.proc p }
  | wait {s} (p pp : Slot) (hp : (s.proc p).state = .active) (hf : s.fork p = none)
      (hz : (s.proc pp).state = .zombie) (hc : (s.proc pp).parent = some p) :
      Step s { s with proc := Function.update s.proc pp freed }
  | acquiresleep {s} (p : Slot) (lk : L) (hp : (s.proc p).state = .active) (hf : s.fork p = none)
      (hl : (s.lock lk).locked = false) :
      Step s { s with
        lock := Function.update s.lock lk ⟨true, (s.proc p).pid⟩
        holder := Function.update s.holder lk (some p) }
  | releasesleep {s} (p : Slot) (lk : L) (h : s.holder lk = some p) :
      Step s { s with
        lock := Function.update s.lock lk ⟨false, 0⟩
        holder := Function.update s.holder lk none }

def booted : Kernel L where
  nextpid := 2
  proc := Function.update (fun _ => freed) initproc ⟨.active, 1, none⟩
  fork := fun _ => none
  lock := fun _ => ⟨false, 0⟩
  allocated := 0
  holder := fun _ => none

def system (L : Type) [DecidableEq L] : System (Kernel L) where
  init s := s = booted
  step := Step

/-- The pids that can be given out before `nextpid` passes the largest `int`. -/
def pidLimit : ℕ := 2 ^ 31 - 2

/-- The pids in use are different, positive and older than `nextpid`. -/
structure Fresh (s : Kernel L) : Prop where
  nextpid : s.nextpid.toNat = s.allocated + 2
  pos : ∀ j, (s.proc j).state ≠ .unused → 0 < (s.proc j).pid.toNat
  old : ∀ j, (s.proc j).state ≠ .unused → (s.proc j).pid.toNat < s.allocated + 2
  distinct : ∀ i j, (s.proc i).state ≠ .unused → (s.proc j).state ≠ .unused →
    (s.proc i).pid = (s.proc j).pid → i = j

/-- Each call of `fork` has a child of its own, which nobody else can reap. -/
structure Forks (s : Kernel L) : Prop where
  child : ∀ p f, s.fork p = some f → (s.proc f.np).pid = f.pid ∧ (s.proc f.np).state ≠ .unused
  used : ∀ p f, s.fork p = some f → f.ready = false → (s.proc f.np).state = .used
  parent : ∀ p f, s.fork p = some f → f.ready = true → (s.proc f.np).parent = some p
  owned : ∀ p q f g, s.fork p = some f → s.fork q = some g → f.np = g.np → p = q

structure Locks (s : Kernel L) : Prop where
  holder : ∀ lk p, s.holder lk = some p →
    (s.lock lk).locked = true ∧ (s.lock lk).pid = (s.proc p).pid ∧ (s.proc p).state = .active
  free : ∀ lk, s.holder lk = none → (s.lock lk).locked = false

structure Inv (s : Kernel L) : Prop where
  fresh : Fresh s
  forks : Forks s
  locks : Locks s

theorem inv_booted : Inv (booted : Kernel L) := by
  have hp : ∀ j, ((booted : Kernel L).proc j).state ≠ .unused → j = initproc := by
    intro j hj
    by_contra hne
    exact hj (by simp [booted, Function.update_of_ne hne, freed])
  refine ⟨⟨rfl, ?_, ?_, ?_⟩, ?_, ?_⟩
  · intro j hj
    rw [hp j hj]
    simp [booted]
  · intro j hj
    rw [hp j hj]
    simp [booted]
  · intro i j hi hj _
    rw [hp i hi, hp j hj]
  · constructor <;> simp [booted]
  · constructor <;> simp [booted]

/-- No pid is given out, and no process gets another one. -/
structure Keeps (s t : Kernel L) : Prop where
  nextpid : t.nextpid = s.nextpid
  allocated : t.allocated = s.allocated
  pid : ∀ j, (t.proc j).state ≠ .unused →
    (s.proc j).state ≠ .unused ∧ (t.proc j).pid = (s.proc j).pid

theorem Fresh.keeps {s t : Kernel L} (h : Fresh s) (hk : Keeps s t) : Fresh t := by
  refine ⟨by rw [hk.nextpid, hk.allocated, h.nextpid], ?_, ?_, ?_⟩
  · intro j hj
    rw [(hk.pid j hj).2]
    exact h.pos j (hk.pid j hj).1
  · intro j hj
    rw [(hk.pid j hj).2, hk.allocated]
    exact h.old j (hk.pid j hj).1
  · intro i j hi hj heq
    rw [(hk.pid i hi).2, (hk.pid j hj).2] at heq
    exact h.distinct i j (hk.pid i hi).1 (hk.pid j hj).1 heq

section

variable [DecidableEq L] {s t : Kernel L}

theorem keeps_of_step (h : Forks s) (hs : Step s t) :
    Keeps s t ∨ ∃ np, (s.proc np).state = .unused ∧ t.nextpid = s.nextpid + 1 ∧
      t.allocated = s.allocated + 1 ∧
      t.proc = Function.update s.proc np { s.proc np with state := .used, pid := s.nextpid } := by
  cases hs with
  | allocproc p np hp hf hu => exact Or.inr ⟨np, hu, rfl, rfl, rfl⟩
  | forkReady p f hf hr =>
    have hused := h.used p f hf hr
    refine Or.inl ⟨rfl, rfl, fun j hj => ?_⟩
    grind [Function.update_apply]
  | forkReturn | acquiresleep | releasesleep => exact Or.inl ⟨rfl, rfl, fun j hj => ⟨hj, rfl⟩⟩
  | exit p => exact Or.inl ⟨rfl, rfl, fun j hj => by grind [exited]⟩
  | _ => exact Or.inl ⟨rfl, rfl, fun j hj => by grind [Function.update_apply, freed]⟩

/-- As long as the counter has not wrapped, a new pid differs from all others. -/
theorem Fresh.step (h : Fresh s) (hforks : Forks s) (hs : Step s t) (ht : t.allocated ≤ pidLimit) :
    Fresh t := by
  rcases keeps_of_step hforks hs with hk | ⟨np, hu, hnext, halloc, hproc⟩
  · exact h.keeps hk
  · obtain ⟨hnextpid, hpos, hold, hdist⟩ := h
    have hnew : (s.nextpid + 1).toNat = s.allocated + 3 := by
      unfold pidLimit at ht
      rw [BitVec.toNat_add, hnextpid]
      simp
      omega
    have hpid : ∀ j, (t.proc j).state ≠ .unused →
        j = np ∧ (t.proc j).pid = s.nextpid ∨
          (s.proc j).state ≠ .unused ∧ (t.proc j).pid = (s.proc j).pid := by
      intro j hj
      rw [hproc] at hj ⊢
      by_cases hjn : j = np
      · subst hjn
        left
        rw [Function.update_self]
        exact ⟨rfl, rfl⟩
      · rw [Function.update_of_ne hjn] at hj ⊢
        exact Or.inr ⟨hj, rfl⟩
    clear hproc
    constructor <;> grind

/-- The child of a call stays with its parent: `exit` reparents the children of a process that is not in
`fork`, and `wait` frees one of such a child. -/
theorem Forks.step (h : Forks s) (hs : Step s t) : Forks t := by
  obtain ⟨hchild, hused, hparent, howned⟩ := h
  cases hs with
  | acquiresleep | releasesleep => exact ⟨hchild, hused, hparent, howned⟩
  | exit => constructor <;> grind [exited]
  | _ => constructor <;> grind [Function.update_apply]

theorem Locks.step (h : Locks s) (hforks : Forks s) (hs : Step s t) : Locks t := by
  obtain ⟨hholder, hfree⟩ := h
  cases hs with
  | forkReturn => exact ⟨hholder, hfree⟩
  | forkFail p f hf hr | forkReady p f hf hr =>
    have hused := hforks.used p f hf hr
    constructor <;> grind [Function.update_apply]
  | exit => constructor <;> grind [exited]
  | _ => constructor <;> grind [Function.update_apply]

theorem Inv.step (h : Inv s) (hs : Step s t) (ht : t.allocated ≤ pidLimit) : Inv t :=
  ⟨h.fresh.step h.forks hs ht, h.forks.step hs, h.locks.step h.forks hs⟩

end

theorem allocated_le [DecidableEq L] {s t : Kernel L} (h : Step s t) : s.allocated ≤ t.allocated := by
  cases h with
  | allocproc => exact Nat.le_succ _
  | _ => exact le_rfl

theorem inv_reachable [DecidableEq L] {s : Kernel L} (h : (system L).Reachable s)
    (hlim : s.allocated ≤ pidLimit) : Inv s := by
  revert hlim
  refine System.Reachable.invariant (I := fun s => s.allocated ≤ pidLimit → Inv s) ?_ ?_ h
  · rintro s rfl _
    exact inv_booted
  · intro s t _ ih hstep ht
    exact (ih (le_trans (allocated_le hstep) ht)).step hstep ht

theorem toInt_pos_of_lt {pid : BitVec 32} (hpos : 0 < pid.toNat) (hlt : pid.toNat < 2 ^ 31) :
    0 < pid.toInt := by
  rw [BitVec.toInt_eq_toNat_cond, if_pos (by omega)]
  omega

/-- As long as `nextpid` has not passed the largest `int`, every `fork` that returns has a positive pid
which no other process has, and `holdingsleep` is true for the holder only. -/
theorem pids_valid [DecidableEq L] {s : Kernel L} (h : (system L).Reachable s)
    (hlim : s.allocated ≤ pidLimit) :
    (∀ p np pid, s.fork p = some ⟨np, pid, true⟩ →
      0 < pid.toInt ∧ ∀ j, j ≠ np → (s.proc j).state ≠ .unused → (s.proc j).pid ≠ pid) ∧
    ∀ lk p, (s.proc p).state = .active → (holdingsleep s lk p = true ↔ s.holder lk = some p) := by
  have hinv := inv_reachable h hlim
  constructor
  · intro p np pid hf
    obtain ⟨hpid, hlive⟩ := hinv.forks.child p _ hf
    change (s.proc np).pid = pid at hpid
    have hpos := hinv.fresh.pos np hlive
    have hold := hinv.fresh.old np hlive
    rw [hpid] at hpos hold
    refine ⟨toInt_pos_of_lt hpos (by unfold pidLimit at hlim; omega), ?_⟩
    intro j hj hstate heq
    exact hj (hinv.fresh.distinct j np hstate hlive (heq.trans hpid.symm))
  · intro lk p hp
    have hlive : ∀ q, (s.proc q).state = .active → (s.proc q).state ≠ .unused := by
      intro q hq
      rw [hq]
      decide
    unfold holdingsleep
    rw [Bool.and_eq_true, decide_eq_true_eq]
    constructor
    · rintro ⟨hlocked, hpid⟩
      cases hh : s.holder lk with
      | none =>
        rw [hinv.locks.free lk hh] at hlocked
        cases hlocked
      | some q =>
        obtain ⟨-, hq, hactive⟩ := hinv.locks.holder lk q hh
        rw [hinv.fresh.distinct q p (hlive q hactive) (hlive p hp) (hq.symm.trans hpid)]
    · intro hh
      obtain ⟨hlocked, hpid, -⟩ := hinv.locks.holder lk p hh
      exact ⟨hlocked, hpid⟩

section

/-- The slot that `allocproc` gives to the first child of `initproc`. -/
def firstChild : Slot := ⟨1, one_lt_nproc⟩

/-- `initproc` alone, after `k` pids have been given out. -/
def alone (k : ℕ) : Kernel L := { booted with nextpid := BitVec.ofNat 32 (k + 2), allocated := k }

/-- `initproc` with one child in state `state`, which has the last pid. -/
def withChild (k : ℕ) (state : ProcState) (parent : Option Slot) (f : Option Fork) : Kernel L :=
  { booted with
    nextpid := BitVec.ofNat 32 (k + 3)
    allocated := k + 1
    proc := Function.update (booted : Kernel L).proc firstChild ⟨state, BitVec.ofNat 32 (k + 2), parent⟩
    fork := Function.update (fun _ => none) initproc f }

variable [DecidableEq L] {k : ℕ}

theorem reachable_used (h : (system L).Reachable (alone k)) :
    (system L).Reachable
      (withChild k .used none (some ⟨firstChild, BitVec.ofNat 32 (k + 2), false⟩)) := by
  have hnext : BitVec.ofNat 32 (k + 2) + 1 = BitVec.ofNat 32 (k + 3) :=
    (BitVec.ofNat_add (k + 2) 1).symm
  have hstep := h.step (Step.allocproc initproc firstChild rfl rfl rfl)
  unfold withChild
  rw [← hnext]
  exact hstep

theorem reachable_ready (h : (system L).Reachable (alone k)) :
    (system L).Reachable
      (withChild k .active (some initproc)
        (some ⟨firstChild, BitVec.ofNat 32 (k + 2), true⟩)) := by
  have hstep := (reachable_used h).step
    (Step.forkReady initproc ⟨firstChild, BitVec.ofNat 32 (k + 2), false⟩ rfl rfl)
  simp only [withChild, Function.update_idem, Function.update_self] at hstep ⊢
  exact hstep

theorem reachable_reaped (h : (system L).Reachable (alone k)) :
    (system L).Reachable (alone (k + 1)) := by
  have hreturn := (reachable_ready h).step
    (Step.forkReturn initproc ⟨firstChild, BitVec.ofNat 32 (k + 2), true⟩ rfl rfl)
  have hexit := hreturn.step
    (Step.exit firstChild rfl rfl (by decide) (by intro lk hlk; cases hlk))
  have hwait := hexit.step (Step.wait initproc firstChild rfl rfl rfl rfl)
  have heq : Function.update (exited (withChild k .active (some initproc) none : Kernel L).proc
      firstChild) firstChild freed = (booted : Kernel L).proc := by
    funext j
    by_cases hj : j = firstChild
    · rw [hj]
      rfl
    · by_cases hi : j = initproc
      · rw [hi]
        rfl
      · simp [exited, withChild, booted, Function.update_of_ne hi, hj, freed]
  have hfork : Function.update (Function.update (fun _ => none) initproc
      (some ⟨firstChild, BitVec.ofNat 32 (k + 2), true⟩)) initproc none =
      fun _ : Slot => (none : Option Fork) := by
    rw [Function.update_idem]
    exact Function.update_eq_self initproc _
  change (system L).Reachable ⟨BitVec.ofNat 32 (k + 3), (booted : Kernel L).proc, fun _ => none,
    (booted : Kernel L).lock, k + 1, (booted : Kernel L).holder⟩
  rw [← heq, ← hfork]
  exact hwait

theorem reachable_alone (k : ℕ) : (system L).Reachable (alone k) := by
  induction k with
  | zero => exact .init rfl
  | succ k ih => exact reachable_reaped ih

end

theorem pids_valid_fork :
    ∃ s : Kernel Unit, ((system Unit).Reachable s ∧ s.allocated ≤ pidLimit) ∧
      (∀ p np pid, s.fork p = some ⟨np, pid, true⟩ →
        0 < pid.toInt ∧ ∀ j, j ≠ np → (s.proc j).state ≠ .unused → (s.proc j).pid ≠ pid) ∧
      s.fork initproc = some ⟨firstChild, 2, true⟩ := by
  have hreach := reachable_ready (reachable_alone (L := Unit) 0)
  have hlim : (1 : ℕ) ≤ pidLimit := by decide
  exact ⟨_, ⟨hreach, hlim⟩, (pids_valid hreach hlim).1, rfl⟩

/-- After 2147483646 children of `initproc` have come and gone, `fork` returns a negative pid. -/
theorem fork_returns_negative_pid :
    ∃ (s : Kernel Unit) (pid : BitVec 32), (system Unit).Reachable s ∧
      s.fork initproc = some ⟨firstChild, pid, true⟩ ∧ pid.toInt = -2147483648 :=
  ⟨_, BitVec.ofNat 32 (2147483646 + 2), reachable_ready (reachable_alone 2147483646), rfl, rfl⟩

end Xv6.Pids
