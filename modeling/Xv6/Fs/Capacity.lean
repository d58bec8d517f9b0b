import Xv6.Bio.Pinned
import Xv6.Fs.File

/-! When `bget` finds a buffer. The log limits what operations pin, but nothing limits the readers, and
each of them holds a buffer. -/
namespace Xv6.Bio

open Lib Log
open Lib.System (Reachable)

variable {N : ℕ} {G : Geometry} {client : Code Unit → Prop} {s : Kernel N} {b : ℕ}

/-- How often processes hold a buffer or wait for one. -/
def Kernel.load (s : Kernel N) : ℕ := ∑ i, holders s.owner s.pc i

/-- Besides the listed blocks, processes ask for less than `NBUF` buffers. -/
def Kernel.Light (s : Kernel N) : Prop := s.load + s.log.lh.length < nbuf

instance (s : Kernel N) : Decidable s.Light := inferInstanceAs (Decidable (_ < _))

/-- The runs in which every state is light. -/
def lightMachine (N : ℕ) (G : Geometry) (client : Code Unit → Prop) : System (Kernel N) where
  init := Initial G
  step s t := (machine N G client).step s t ∧ t.Light

namespace Bcache

variable {c : Bcache}

theorem bget_eq_error (hn : ∀ i, ¬c.Names i rootDev b) (hr : ∀ i, (c.buf i).refcnt ≠ 0) :
    c.bget rootDev b = .error "bget: no buffers" := by
  unfold bget
  rw [List.find?_eq_none.mpr fun i _ => by simp [hn i]]
  simp only
  rw [List.find?_eq_none.mpr fun i _ => by simp [hr i]]

theorem exists_bget (hl : ∀ i, i ∈ c.lru)
    (h : (∃ i, c.Names i rootDev b) ∨ ∃ i, (c.buf i).refcnt = 0) : ∃ r, c.bget rootDev b = .ok r := by
  unfold bget
  cases hf : c.lru.find? fun i => decide (c.Names i rootDev b) with
  | some i => exact ⟨_, rfl⟩
  | none =>
    have hn : ∀ i, ¬c.Names i rootDev b := by
      intro i hi
      have := List.find?_eq_none.mp hf i (hl i)
      simp [hi] at this
    obtain ⟨i, hi⟩ := h.resolve_left fun ⟨i, hi⟩ => hn i hi
    cases hz : c.lru.reverse.find? fun i => decide ((c.buf i).refcnt = 0) with
    | some j => exact ⟨_, rfl⟩
    | none =>
      have := List.find?_eq_none.mp hz i (List.mem_reverse.mpr (hl i))
      simp [hi] at this

def busy (c : Bcache) : Finset (Fin nbuf) := Finset.univ.filter fun i => (c.buf i).refcnt ≠ 0

theorem mem_busy {i : Fin nbuf} : i ∈ c.busy ↔ (c.buf i).refcnt ≠ 0 := by simp [busy]

theorem card_busy_lt_iff (c : Bcache) : c.busy.card < nbuf ↔ ∃ i, (c.buf i).refcnt = 0 := by
  have hle := Finset.card_filter_le Finset.univ fun i => (c.buf i).refcnt ≠ 0
  have hall := Finset.card_filter_eq_iff (s := Finset.univ) (p := fun i => (c.buf i).refcnt ≠ 0)
  rw [Finset.card_univ, Fintype.card_fin] at hle hall
  rw [busy, lt_iff_le_and_ne, and_iff_right hle, Ne, hall]
  simp

theorem card_busy_set {i : Fin nbuf} {d : Buf} (h0 : (c.buf i).refcnt = 0) (hd : d.refcnt ≠ 0) :
    (c.set i d).busy.card = c.busy.card + 1 := by
  rw [← Finset.card_insert_of_notMem (a := i) (by simp [mem_busy, h0])]
  congr 1
  ext j
  rw [Finset.mem_insert, mem_busy, mem_busy, set_buf]
  by_cases hij : j = i
  · simp [hij, hd]
  · simp [hij]

end Bcache

/-- The buffers in use are those that processes hold or wait for, and those of listed blocks. -/
theorem Counted.card_busy_le {pins : ℕ → Bool} (h : Counted s pins) :
    s.bcache.busy.card ≤ s.load + s.log.lh.length := by
  have hpins : (Finset.univ.filter fun i => (s.bcache.buf i).dev = rootDev ∧
      pins (s.bcache.buf i).blockno = true).card ≤ s.log.lh.length := by
    refine le_trans ?_ (List.toFinset_card_le s.log.lh)
    apply Finset.card_le_card_of_injOn fun i => (s.bcache.buf i).blockno
    · intro i hi
      exact List.mem_toFinset.mpr (h.listed.2 _ (Finset.mem_filter.mp hi).2.2)
    · intro i hi j hj hij
      exact h.wf.unique i j _ ⟨(Finset.mem_filter.mp hi).2.1, hij⟩ ⟨(Finset.mem_filter.mp hj).2.1, rfl⟩
  have hheld : (Finset.univ.filter fun i => 0 < holders s.owner s.pc i).card ≤ s.load := by
    rw [Finset.card_filter]
    apply Finset.sum_le_sum
    intro i _
    split_ifs with hi
    · exact hi
    · exact Nat.zero_le _
  have hsub : s.bcache.busy ⊆ (Finset.univ.filter fun i => 0 < holders s.owner s.pc i) ∪
      Finset.univ.filter fun i => (s.bcache.buf i).dev = rootDev ∧ pins (s.bcache.buf i).blockno = true := by
    intro i hi
    have hr := h.wf.refcnt i
    rw [Bcache.mem_busy] at hi
    simp only [Finset.mem_union, Finset.mem_filter, Finset.mem_univ, true_and]
    split_ifs at hr with hp
    · exact Or.inr hp
    · exact Or.inl (by omega)
  have hle := (Finset.card_le_card hsub).trans (Finset.card_union_le _ _)
  omega

theorem light_of_reachable (h : (lightMachine N G client).Reachable s) :
    (machine N G client).Reachable s ∧ s.Light := by
  refine h.invariant (I := fun s => (machine N G client).Reachable s ∧ s.Light) ?_ ?_
  · intro s hs
    have hinit : Initial G s := hs
    refine ⟨.init hs, ?_⟩
    have hload : s.load = 0 := Finset.sum_eq_zero fun i _ => by simp [holders, hinit.owner i, hinit.pc]
    rw [Kernel.Light, hload, hinit.log]
    exact (by decide : 0 + 0 < nbuf)
  · rintro s t - ⟨hs, -⟩ ⟨hst, ht⟩
    exact ⟨hs.step hst, ht⟩

/-- In a run in which the buffers that processes hold or wait for and the listed blocks are less than
`NBUF`, `bget` finds a buffer for every block. -/
theorem bget_finds_of_light (h : (lightMachine N G client).Reachable s) (b : ℕ) :
    ∃ r, s.bcache.bget rootDev b = .ok r := by
  obtain ⟨hs, hlight⟩ := light_of_reachable h
  obtain ⟨pins, hcount⟩ := Counted.of_reachable hs
  have hfree := (s.bcache.card_busy_lt_iff).mp (lt_of_le_of_lt hcount.card_busy_le hlight)
  exact Bcache.exists_bget hcount.wf.lru (Or.inr hfree)

/-- One process has recorded block 100 and holds it, another one waits for block 46. -/
theorem bget_finds_of_light_two : ∃ s : Kernel 2,
    (lightMachine 2 ⟨2, 30⟩ fun _ => True).Reachable s ∧ s.load = 2 ∧ s.log.lh = [100] ∧
      ∃ r, s.bcache.bget rootDev 200 = .ok r := by
  let i : Fin nbuf := ⟨29, by decide⟩
  let j : Fin nbuf := ⟨28, by decide⟩
  have h := Reachable.init (S := lightMachine 2 ⟨2, 30⟩ fun _ => True)
    (Kernel.initial_fresh 2 (by decide))
  have h := h.step ⟨⟨rfl, .beginOp 0 rfl rfl⟩, by decide +kernel⟩
  have h := h.step ⟨⟨rfl, .call 0 rewrite100 rfl trivial⟩, by decide +kernel⟩
  have h := h.step ⟨⟨rfl, .bget 0 100 _ i _ rfl rfl⟩, by decide +kernel⟩
  have h := h.step ⟨⟨rfl, .acquiresleep 0 i 100 _ rfl rfl⟩, by decide +kernel⟩
  have h := h.step ⟨⟨rfl, .breadDisk 0 i 100 _ rfl rfl⟩, by decide +kernel⟩
  have h := h.step ⟨⟨rfl, .store 0 100 _ _ i rfl (by rintro ⟨⟩) ⟨rfl, rfl, rfl⟩ (by decide)⟩,
    by decide +kernel⟩
  have h := h.step ⟨⟨rfl, .logWrite 0 100 _ i _ _ rfl (by rintro ⟨⟩) ⟨rfl, rfl, rfl⟩ (by decide) rfl⟩,
    by decide +kernel⟩
  have h := h.step ⟨⟨rfl, .call 1 (bread 46 >>= fun _ => return) rfl trivial⟩, by decide +kernel⟩
  have h := h.step ⟨⟨rfl, .bget 1 46 _ j _ rfl rfl⟩, by decide +kernel⟩
  exact ⟨_, h, by decide +kernel, rfl, bget_finds_of_light h 200⟩

section Readers

open Fs

/-- `readi` outside a transaction, as `fileread` calls it. -/
def Reads (prog : Code Unit) : Prop :=
  ∃ sb ip dst off n, prog = do
    let _ ← readi sb ip dst off n
    return

def smallFile (b : ℕ) : Dinode :=
  { Dinode.zero with type := 2, nlink := 1, size := 1 }.setAddr 0 b

theorem readi_smallFile (sb : Superblock) (h0 : 0 < b) (hb : b < 2 ^ 32) :
    ∃ k, readi sb (smallFile b) .kernel 0 1 = .op (.bread b) k := by
  have ha : (smallFile b).addr 0 = b := by
    rw [smallFile, Dinode.addr_setAddr _ (by decide) hb, if_pos rfl]
  have hm : bmap sb (smallFile b) (0 / bsize) = .ret (b, smallFile b) := by
    rw [bmap, if_pos (by decide), bmapDirect, Nat.zero_div, ha, if_neg (by omega)]
    rfl
  have hsize : (smallFile b).size.toNat = 1 := rfl
  unfold readi
  simp only [hsize]
  rw [if_neg (by decide), if_neg (by decide), readiLoop, if_pos (by decide), hm]
  simp only [Lib.Prog.ret_bind]
  rw [if_neg (by omega)]
  exact ⟨_, rfl⟩

/-- Readers below `k` have each got a buffer of their own. -/
structure Filled (k : ℕ) (s : Kernel nproc) : Prop where
  panicked : s.panicked = none
  log : s.log = ⟨30, 0, false, []⟩
  idle : ∀ p : Fin nproc, k ≤ p.val → s.pc p = .idle
  names : ∀ i b, s.bcache.Names i rootDev b → b < 100 + k
  lru : ∀ i, i ∈ s.bcache.lru
  card : s.bcache.busy.card = k

theorem Filled.call {k : ℕ} {s : Kernel nproc} (h : Filled k s)
    (hs : (machine nproc G Reads).Reachable s) (hk : k < nproc) :
    ∃ cont, (machine nproc G Reads).Reachable
      (s.goto ⟨k, hk⟩ (.run (.op (.bread (100 + k)) cont))) := by
  have hb : 100 + k < 2 ^ 32 := by
    rw [nproc_eq] at hk
    omega
  obtain ⟨cont, hc⟩ := readi_smallFile ⟨0, 0, 0, 0, 0, 0⟩ (show 0 < 100 + k by omega) hb
  have hr : Reads (.op (.bread (100 + k)) fun r => cont r >>= fun _ => .ret ()) :=
    ⟨_, _, _, _, _, by rw [hc]; rfl⟩
  exact ⟨_, hs.step ⟨h.panicked, .call ⟨k, hk⟩ _ (h.idle _ le_rfl) hr⟩⟩

theorem exists_filled {k : ℕ} (hk : k ≤ nbuf) :
    ∃ s, (machine nproc ⟨2, 30⟩ Reads).Reachable s ∧ Filled k s := by
  induction k with
  | zero =>
    refine ⟨_, .init (Kernel.initial_fresh _ (by decide)), rfl, rfl, fun _ _ => rfl, ?_, ?_, ?_⟩
    · intro i b hi
      exact absurd hi.1 (by simp [Kernel.fresh, rootDev])
    · exact List.mem_finRange
    · simp [Bcache.busy, Kernel.fresh]
  | succ k ih =>
    obtain ⟨s, hs, h⟩ := ih (by omega)
    have hp : k < nproc := lt_trans hk (by decide)
    obtain ⟨cont, hcall⟩ := h.call hs hp
    have hfree := (s.bcache.card_busy_lt_iff).mp (by rw [h.card]; exact hk)
    obtain ⟨⟨i, c⟩, hget⟩ := Bcache.exists_bget (b := 100 + k) h.lru (Or.inr hfree)
    obtain ⟨hi, -⟩ | ⟨-, h0, rfl⟩ := Bcache.bget_ok hget
    · exact absurd (h.names i _ hi) (lt_irrefl _)
    · refine ⟨_, hcall.step ⟨h.panicked, .bget ⟨k, hp⟩ _ _ i _ (Function.update_self ..) hget⟩, ?_⟩
      refine ⟨h.panicked, h.log, ?_, ?_, h.lru, ?_⟩
      · intro q hq
        have hne : q ≠ ⟨k, hp⟩ := by
          rintro rfl
          exact absurd hq (Nat.not_succ_le_self k)
        simp only [Kernel.goto, Function.update_of_ne hne]
        exact h.idle q (Nat.le_of_succ_le hq)
      · intro j b hj
        by_cases hij : j = i
        · have hb := hj.2
          simp only [hij, Bcache.set_buf, Function.update_self] at hb
          omega
        · rw [Bcache.Names, Bcache.set_buf, Function.update_of_ne hij] at hj
          exact (h.names j b hj).trans (by omega)
      · show (s.bcache.set i _).busy.card = k + 1
        rw [Bcache.card_busy_set h0 Nat.one_ne_zero, h.card]

/-- Thirty-one readers are enough: each holds a buffer while it waits for the disk, and no
transaction is open. -/
theorem bget_runs_out : ∃ s : Kernel nproc, (machine nproc ⟨2, 30⟩ Reads).Reachable s ∧
    s.log.outstanding = 0 ∧ s.log.lh = [] ∧ s.panicked = some "bget: no buffers" := by
  obtain ⟨k, hk⟩ : ∃ k, k = nbuf := ⟨_, rfl⟩
  obtain ⟨s, hs, h⟩ := exists_filled hk.le
  have hp : k < nproc := by rw [hk]; decide
  obtain ⟨cont, hcall⟩ := h.call hs hp
  have hnew : ∀ i, ¬s.bcache.Names i rootDev (100 + k) := fun i hi => (h.names i _ hi).ne rfl
  have hfull : ∀ i, (s.bcache.buf i).refcnt ≠ 0 := fun i hi =>
    absurd ((s.bcache.card_busy_lt_iff).mpr ⟨i, hi⟩) (by rw [h.card, hk]; exact lt_irrefl _)
  exact ⟨_, hcall.step ⟨h.panicked, .bgetPanic ⟨k, hp⟩ _ _ _ (Function.update_self ..)
    (Bcache.bget_eq_error hnew hfull)⟩, congrArg Log.outstanding h.log, congrArg Log.lh h.log, rfl⟩

end Readers

end Xv6.Bio
