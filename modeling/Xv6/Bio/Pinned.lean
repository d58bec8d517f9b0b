import Xv6.Bio.Counted

/-! Recorded blocks stay in the cache until `install_trans` has put them in place. -/
namespace Xv6.Bio

open Lib Log
open Lib.System (Reachable)

variable {N : ℕ} {G : Geometry} {client : Code Unit → Prop} {s t : Kernel N} {a : CrashState}

theorem Step.leaked (hst : Step G client s t) (ht : t.leaked = false) : s.leaked = false := by
  cases hst with
  | releasesleep p b k i hp hi =>
    simp only [Bool.or_eq_false_iff] at ht
    exact ht.1
  | _ => exact ht

/-- The log machine with the disk of an initial state. -/
def Kernel.start (s : Kernel N) : CrashState where
  mem := ⟨s.disk, s.disk, fun _ => false, fun _ => false, s.log⟩
  phase := .running
  before := s.disk
  txn := []

theorem Initial.mirrors (h : Initial G s) : Mirrors s s.start := by
  refine ⟨⟨h.lru, h.unique, ?_, ?_, ?_, ?_, ?_, ?_, ?_⟩, rfl, rfl, ?_, ?_, ?_, ⟨?_, ?_⟩, ?_⟩
  · intro i
    simp [Kernel.start, holders, h.refcnt i, h.owner i, h.pc, Pc.waits]
  · simp [Kernel.start]
  · simp [h.pc]
  · simp [h.pc]
  · simp [h.owner]
  · simp [h.owner]
  · simp [h.dirty]
  · simp [SamePhase, h.committer, Kernel.start]
  · simp [h.committer]
  · simp [Kernel.start]
  · intro i b hn hv _
    rw [h.coherent i hv hn.1, hn.2]
    rfl
  · simp [Kernel.start]
  · simp [Kernel.start]

theorem Initial.invariant (h : Initial G s) : CrashInvariant G s.start := by
  have hsize := h.size
  refine ⟨⟨?_, ?_, ?_, ?_, ?_, ?_, ?_, ?_, h.cleared, ?_, ?_, ?_⟩, ?_⟩ <;>
    simp [Kernel.start, h.log, CrashState.after, apply]
  exact hsize

/-- As long as no change gets lost, a reachable state shows what the log machine computes. -/
theorem mirrored (h : (machine N G client).Reachable s) (hl : s.leaked = false) :
    ∃ a, CrashInvariant G a ∧ Mirrors s a := by
  induction h with
  | init h => exact ⟨_, h.invariant, h.mirrors⟩
  | step _ hst ih =>
    obtain ⟨a, hinv, ha⟩ := ih (hst.2.leaked hl)
    obtain ⟨a', hmove, ha'⟩ := ha.step hinv hst.2 hl
    rcases hmove with rfl | hstep
    · exact ⟨_, hinv, ha'⟩
    · exact ⟨a', hinv.step hstep, ha'⟩

/-- Exactly one buffer has block `b`, and its reference count exceeds its holders by the one of
`bpin`. -/
def Kernel.Pinned (s : Kernel N) (b : ℕ) : Prop :=
  ∃ i, s.bcache.Names i rootDev b ∧ (∀ j, s.bcache.Names j rootDev b → j = i) ∧
    (s.bcache.buf i).refcnt = holders s.owner s.pc i + 1

theorem Counted.pinned_iff {pins : ℕ → Bool} (h : Counted s pins) {b : ℕ} :
    s.Pinned b ↔ pins b = true := by
  constructor
  · rintro ⟨i, hn, -, hr⟩
    have hi := h.wf.refcnt i
    rw [hr, hn.1, hn.2] at hi
    by_contra hb
    simp [hb] at hi
  · intro hb
    obtain ⟨i, hn⟩ := h.wf.pinned b hb
    refine ⟨i, hn, fun j hj => h.wf.unique j i b hj hn, ?_⟩
    rw [h.wf.refcnt i, hn.1, hn.2]
    simp [hb]

theorem Counted.pins_committed {pins : ℕ → Bool} (h : Counted s pins) {p : Fin N}
    (hc : s.committer = some p) (hp : s.pc p = .run (.ret ())) :
    s.log.lh = [] ∧ ∀ b, pins b = false := by
  obtain ⟨c, hrest, hun⟩ := h.commit p hc
  rw [hp, Pc.rest] at hrest
  obtain rfl := Option.some.inj hrest
  exact hun.2

theorem Mirrors.cache_listed (h : Mirrors s a) (hinv : CrashInvariant G a) {b : ℕ}
    (hb : b ∈ s.log.lh) : a.mem.cache b = s.logged b := by
  rw [← h.log] at hb
  have hrecorded : b ∈ a.txn.map Prod.fst → s.logged b = a.after b := by
    intro hm
    obtain ⟨u, hu, rfl⟩ := List.mem_map.mp hm
    exact h.logged u hu
  unfold CrashInvariant at hinv
  split at hinv
  · rw [hinv.1.after b (hinv.1.home b hb), hrecorded (hinv.2 hb)]
  · have hnow := hinv.now
    rw [hnow.view b (hnow.disk.home b hb), hrecorded (hnow.disk.listed hb)]
  · next c hc => exact absurd hc (h.not_recover c)

theorem Mirrors.log_blocks (h : Mirrors s a) (hinv : CrashInvariant G a) (k : ℕ)
    (hk : k < (readHeader (s.disk G.start)).length) :
    s.disk (G.start + k + 1) = s.logged (readHeader (s.disk G.start))[k] := by
  unfold CrashInvariant at hinv
  split at hinv
  · have hcl := hinv.1.cleared.readHeader
    simp [← h.disk, hcl] at hk
  · have hdisk := hinv.now.disk
    have hheader := hdisk.header
    have hlog := hdisk.logged k (by rw [h.disk]; exact hk)
    simp only [h.disk] at hlog hheader
    obtain ⟨u, hu, he⟩ := List.mem_map.mp (hheader (List.getElem_mem hk))
    rw [hlog, ← he, h.logged u hu]
  · next c hc => exact absurd hc (h.not_recover c)

/-- Only the `bunpin` of `commit` takes a pin away. -/
theorem Counted.pinned_step {pins : ℕ → Bool} (h : Counted s pins) (hst : Step G client s t) {b : ℕ}
    (hb : s.Pinned b) :
    t.Pinned b ∨ ∃ p k, s.committer = some p ∧ (s.pc p).rest = some (.op (.bunpin b) k) := by
  obtain ⟨pins', ht, hpins⟩ := h.step hst
  rw [h.pinned_iff] at hb
  rw [ht.pinned_iff]
  rcases hpins b hb with hb | hb
  · exact Or.inl hb
  · exact Or.inr hb

theorem Counted.recycled {pins : ℕ → Bool} (h : Counted s pins) {b x : ℕ} {i : Fin nbuf} {c : Bcache}
    (hg : s.bcache.bget rootDev b = .ok (i, c)) (hn : s.bcache.Names i rootDev x) (hx : x ≠ b) :
    s.owner i = none ∧ pins x = false := by
  rcases Bcache.bget_ok hg with ⟨hn', -⟩ | ⟨-, h0, -⟩
  · exact absurd (hn.2.symm.trans hn'.2) hx
  · obtain ⟨ho, -, hpin⟩ := h.wf.free h0
    exact ⟨ho, hn.2 ▸ hpin hn.1⟩

/-- The contents of listed blocks: a buffer that is recycled has its contents in place, `bread` returns
the contents recorded last, and the log gets them. -/
structure Recorded (G : Geometry) (s : Kernel N) : Prop where
  recycled : ∀ b x i c, s.bcache.bget rootDev b = .ok (i, c) → s.bcache.Names i rootDev x → x ≠ b →
    x ∈ s.log.lh → s.disk x = s.logged x
  bread : ∀ p i b k, s.pc p = .filling i b k → b ∈ s.log.lh →
    (if (s.bcache.buf i).valid then (s.bcache.buf i).data else s.disk b) = s.logged b
  writeLog : ∀ k (hk : k < (readHeader (s.disk G.start)).length),
    s.disk (G.start + k + 1) = s.logged (readHeader (s.disk G.start))[k]

theorem Mirrors.recorded (h : Mirrors s a) (hinv : CrashInvariant G a) {pins : ℕ → Bool}
    (hcount : Counted s pins) : Recorded G s := by
  refine ⟨fun b x i c hg hn hx hl => ?_, fun p i b k hp hb => ?_, h.log_blocks hinv⟩
  · obtain ⟨ho, hpin⟩ := hcount.recycled hg hn hx
    have hsame : a.mem.pins x = false := by
      rcases Bcache.bget_ok hg with ⟨hn', -⟩ | ⟨-, h0, -⟩
      · exact absurd (hn.2.symm.trans hn'.2) hx
      · exact hn.2 ▸ (h.wf.free h0).2.2 hn.1
    rw [← h.coherent hinv hn ho hsame, h.cache_listed hinv hl]
  · rw [h.bread_data hp, h.cache_listed hinv hb]

/-- In every interleaving: no block is listed twice; a listed block has exactly one buffer with exactly
one pin, which only the `bunpin` of `commit` takes away; `bget` takes no pinned buffer; and `commit`
leaves every reference count at the number of holders. If no changed buffer has been released
without `log_write`, the contents of the listed blocks are those that were recorded last. -/
theorem listed_stay_cached (h : (machine N G client).Reachable s) :
    s.log.lh.Nodup ∧
    (s.committer = none → ∀ b, s.Pinned b ↔ b ∈ s.log.lh) ∧
    (∀ t b, (machine N G client).step s t → s.Pinned b →
      t.Pinned b ∨ ∃ p k, s.committer = some p ∧ (s.pc p).rest = some (.op (.bunpin b) k)) ∧
    (∀ b x i c, s.bcache.bget rootDev b = .ok (i, c) → s.bcache.Names i rootDev x → x ≠ b →
      ¬s.Pinned x) ∧
    (s.committer = none → ∀ i, (s.bcache.buf i).refcnt = holders s.owner s.pc i +
      if (s.bcache.buf i).dev = rootDev ∧ (s.bcache.buf i).blockno ∈ s.log.lh then 1 else 0) ∧
    (∀ p, s.committer = some p → s.pc p = .run (.ret ()) →
      s.log.lh = [] ∧ ∀ i, (s.bcache.buf i).refcnt = holders s.owner s.pc i) ∧
    (s.leaked = false → Recorded G s) := by
  obtain ⟨pins, hs⟩ := Counted.of_reachable h
  refine ⟨hs.listed.1, fun hc b => ?_, fun t b hst hb => hs.pinned_step hst.2 hb,
    fun b x i c hg hn hx => ?_, fun hc i => ?_, fun p hc hp => ?_, fun hl => ?_⟩
  · rw [hs.pinned_iff, (hs.running hc).2]
  · simp [hs.pinned_iff, (hs.recycled hg hn hx).2]
  · simp only [hs.wf.refcnt i, (hs.running hc).2]
  · obtain ⟨hlh, hpins⟩ := hs.pins_committed hc hp
    exact ⟨hlh, fun i => by simp [hs.wf.refcnt i, hpins]⟩
  · obtain ⟨a, hinv, ha⟩ := mirrored h hl
    exact ha.recorded hinv hs

/-- A machine just switched on, with an empty disk and an empty cache. -/
def Kernel.fresh (N : ℕ) (G : Geometry) : Kernel N where
  disk := fun _ _ => 0
  bcache := ⟨fun _ => ⟨false, 0, 0, 0, fun _ => 0⟩, List.finRange nbuf⟩
  owner := fun _ => none
  log := ⟨G.size, 0, false, []⟩
  pc := fun _ => .idle
  committer := none
  dirty := fun _ => false
  leaked := false
  logged := fun _ _ => 0
  panicked := none

theorem Kernel.initial_fresh (N : ℕ) {G : Geometry} (hG : 1 ≤ G.size) :
    Initial G (Kernel.fresh N G) := by
  constructor <;> simp [Kernel.fresh, hG, Bcache.Names, rootDev]
  show Bytes.getLE (fun _ => 0) 0 4 = 0
  decide

def rewrite100 : Code Unit := do
  let data ← bread 100
  store 100 data
  logWrite 100

theorem listed_stay_cached_rewrite : ∃ s : Kernel 1,
    (machine 1 ⟨2, 30⟩ (· = rewrite100)).Reachable s ∧ s.leaked = false ∧ s.log.lh = [100] ∧
      s.Pinned 100 ∧ Recorded ⟨2, 30⟩ s := by
  let i : Fin nbuf := ⟨29, by decide⟩
  have h := Reachable.init (S := machine 1 ⟨2, 30⟩ (· = rewrite100))
    (Kernel.initial_fresh 1 (by decide))
  have h := h.step ⟨rfl, .beginOp 0 rfl rfl⟩
  have h := h.step ⟨rfl, .call 0 _ rfl rfl⟩
  have h := h.step ⟨rfl, .bget 0 100 _ i _ rfl rfl⟩
  have h := h.step ⟨rfl, .acquiresleep 0 i 100 _ rfl rfl⟩
  have h := h.step ⟨rfl, .breadDisk 0 i 100 _ rfl rfl⟩
  have h := h.step ⟨rfl, .store 0 100 _ _ i rfl (by rintro ⟨⟩) ⟨rfl, rfl, rfl⟩ (by decide)⟩
  have h := h.step ⟨rfl, .logWrite 0 100 _ i _ _ rfl (by rintro ⟨⟩) ⟨rfl, rfl, rfl⟩ (by decide) rfl⟩
  obtain ⟨-, hpin, -, -, -, -, hrec⟩ := listed_stay_cached h
  exact ⟨_, h, rfl, rfl, (hpin rfl 100).mpr (by decide), hrec rfl⟩

end Xv6.Bio
