import Xv6.Virtio.Request

/-! What holds in every state of the driver and the device. -/
namespace Xv6.Virtio

open Lib

variable {T B D : Type} [DecidableEq T] [DecidableEq B] {s s' : State T B D} {t u : T}

structure Invariant (s : State T B D) : Prop where
  locks : Locks s
  layout : Layout s
  flight : Flight s
  requests : Requests s

namespace Invariant

omit [DecidableEq T] [DecidableEq B] in
theorem init (h : Initial s) : Invariant s := by
  have hflight : s.flight = [] := by
    simp [State.flight, State.queued, State.used, h.seen, h.availIdx, h.usedSeen, h.usedIdx, h.taken,
      h.performed]
  constructor
  · constructor
    · intro t
      simp [h.lock, h.pc, Pc.holds]
    · intro t u b hb
      simp [h.pc, Pc.buf] at hb
  · constructor
    · intro t
      simp [h.pc, Pc.owned]
    · intro t i hi
      simp [h.pc, Pc.owned] at hi
    · intro t u i hi
      simp [h.pc, Pc.owned] at hi
    · intro i hi
      simp [h.free i hi, h.pc, Pc.owned]
    · intro t
      simp [h.pc, Pc.Laid]
  · constructor
    · intro t
      simp [h.pc, Pc.Armed]
    · simp [hflight]
    · intro i
      simp [hflight, State.Pending, h.pc, Pc.waits]
    · intro i hi
      simp [h.performed, State.used, h.usedSeen, h.usedIdx] at hi
  · constructor
    · intro t b idx n hw
      simp [h.pc, Pc.waits] at hw
    · intro t n hn
      simp [h.pc, Pc.number] at hn
    · intro t u n hn
      simp [h.pc, Pc.number] at hn
    · intro t b idx n hw
      simp [h.pc, Pc.waits] at hw
    · intro n hn
      simp [h.count] at hn
    · exact fun n _ => ⟨h.served n, h.acked n⟩

theorem step (h : Invariant s) (hst : Step s s') : Invariant s' where
  locks := h.locks.step hst
  layout := h.layout.step hst
  flight := h.flight.step h.locks h.layout hst
  requests := h.requests.step h.locks h.layout h.flight hst

theorem reachable (h : (machine T B D).Reachable s) : Invariant s :=
  h.invariant (fun _ => init) fun _ _ _ hs hst => hs.step hst

theorem availRing (h : Invariant s) (hst : Step s s') (i : ℕ)
    (hi : i < Ring.count s.dev.seen s.disk.availIdx) :
    s'.disk.availRing (Ring.slot num (s.dev.seen + BitVec.ofNat 16 i)) =
      s.disk.availRing (Ring.slot num (s.dev.seen + BitVec.ofNat 16 i)) := by
  cases hst with
  | alloc t b write idx d hpc ha =>
    obtain ⟨rfl, -⟩ := alloc3Desc_some ha
    rfl
  | allocSleep t b write d hpc ha =>
    obtain ⟨l, hs, -⟩ := alloc3Desc_none ha
    exact congrFun hs.availRing _
  | ring t b write idx hpc =>
    have hlt := h.flight.length_lt (t := t) (i := idx.i0) h.layout (by rw [hpc]; rfl)
      (by simp [hpc, Pc.owned, Idx.list])
    have hcount := lt_of_le_of_lt Flight.count_queued_le hlt
    apply Function.update_of_ne
    rw [← show s.dev.seen + BitVec.ofNat 16 (Ring.count s.dev.seen s.disk.availIdx) =
      s.disk.availIdx from Ring.add_count]
    exact Ring.slot_add_ne (by decide) hi (by omega)
  | freeChain t b write idx n i d hpc hf =>
    rw [h.layout.freeDesc_chain hpc] at hf
    cases hf
    rfl
  | _ => rfl

theorem completion (h : Invariant s) (hst : Step s s') (hu : s'.disk.usedSeen ≠ s.disk.usedSeen) :
    ∃ t b idx n, (s.pc t).waits = some (b, idx, n) ∧ idx.i0 = s.usedId ∧ (s.buf b).disk = true ∧
      (s'.buf b).disk = false ∧ ∀ c, c ≠ b → (s'.buf c).disk = (s.buf c).disk := by
  cases hst with
  | alloc t b write idx d hpc ha =>
    obtain ⟨rfl, -⟩ := alloc3Desc_some ha
    exact (hu rfl).elim
  | allocSleep t b write d hpc ha =>
    obtain ⟨l, hs, -⟩ := alloc3Desc_none ha
    exact (hu hs.usedSeen).elim
  | freeChain t b write idx n i d hpc hf =>
    rw [h.layout.freeDesc_chain hpc] at hf
    cases hf
    exact (hu rfl).elim
  | intr t b hpc hne hs hb =>
    obtain ⟨v, b', idx, n, hw, hi, hd, hinfo, -⟩ := h.flight.usedId hne
    obtain rfl : b' = b := Option.some.inj (hinfo.symm.trans hb)
    exact ⟨v, b', idx, n, hw, hi, hd, by simp, fun c hc => by simp [hc]⟩
  | _ => exact (hu rfl).elim

theorem disk_kept (hst : Step s s') (hu : s'.disk.usedSeen = s.disk.usedSeen) (c : B)
    (hc : (s.buf c).disk = true) : (s'.buf c).disk = true := by
  cases hst with
  | record t b write idx hpc =>
    by_cases hcb : c = b
    · simp [hcb]
    · simpa [hcb, State.goto] using hc
  | intr t b hpc hne hs hb =>
    have hself : s.disk.usedSeen + 1 ≠ s.disk.usedSeen := by bv_omega
    exact (hself hu).elim
  | perform i j b l hm h0 h1 h2 => exact (disk_transfer ..).trans hc
  | other b blockno data hb =>
    by_cases hcb : c = b
    · simpa [hcb] using hc
    · simpa [hcb] using hc
  | _ => exact hc

omit [DecidableEq T] [DecidableEq B] in
theorem once (h : Invariant s) (n : ℕ) : s.hist.served n ≤ 1 ∧ s.hist.acked n ≤ 1 := by
  rcases Nat.lt_or_ge n s.hist.count with hn | hn
  · by_cases hp : ∃ t b idx, (s.pc t).waits = some (b, idx, n) ∧ (s.buf b).disk = true
    · obtain ⟨t, b, idx, hw, hb⟩ := hp
      obtain ⟨ha, hs⟩ := h.requests.pending t b idx n hw hb
      rw [ha, hs]
      split_ifs
      · decide
      · decide
    · obtain ⟨hs, ha⟩ := h.requests.done n hn fun t b idx hw => by
        rw [Bool.eq_false_iff]
        exact fun hb => hp ⟨t, b, idx, hw, hb⟩
      rw [ha, hs]
      decide
  · obtain ⟨hs, ha⟩ := h.requests.fresh n hn
    rw [ha, hs]
    decide

omit [DecidableEq T] [DecidableEq B] in
theorem finished (h : Invariant s) {n : ℕ} (hf : (s.pc t).finished = true)
    (hn : (s.pc t).number = some n) : s.hist.served n = 1 ∧ s.hist.acked n = 1 := by
  refine h.requests.done n (h.requests.number t n hn) fun u b idx hw => ?_
  obtain rfl := h.requests.distinct t u n hn (Pc.number_of_waits hw)
  rw [Pc.waits_of_finished hf] at hw
  cases hw

omit [DecidableEq T] [DecidableEq B] in
theorem ne_panic (h : Invariant s) (t : T) : (∀ msg, s.pc t ≠ .panic msg) ∧ s.pc t ≠ .fault := by
  have ha := h.flight.armed t
  constructor
  · intro msg he
    rw [he] at ha
    exact ha
  · intro he
    rw [he] at ha
    exact ha

end Invariant

/-- The request protocol of the driver, for any number of calls of `virtio_disk_rw` and
`virtio_disk_intr` and any steps of the device in between. -/
theorem virtio_protocol (h : (machine T B D).Reachable s) :
    -- the chains are disjoint, and are the descriptors that are not free
    ((∀ t, (s.pc t).owned.Nodup) ∧ (∀ t u, t ≠ u → (s.pc t).owned.Disjoint (s.pc u).owned) ∧
      ∀ i < num, s.disk.free i = false ↔ ∃ t, i ∈ (s.pc t).owned) ∧
    -- the device finds the chain that the call has made for its buffer
    (∀ i ∈ s.dev.taken, ∃ t b write idx n, (s.pc t).waits = some (b, idx, n) ∧ idx.i0 = i ∧
      Head s.disk (s.buf b).sector write idx ∧ Body s.disk b write idx ∧ Tail s.disk idx) ∧
    -- entries that the device has not taken are not overwritten
    (∀ s', Step s s' → ∀ i < Ring.count s.dev.seen s.disk.availIdx,
      s'.disk.availRing (Ring.slot num (s.dev.seen + BitVec.ofNat 16 i)) =
        s.disk.availRing (Ring.slot num (s.dev.seen + BitVec.ofNat 16 i))) ∧
    -- a completion clears disk in the buffer of its request, and nothing else does
    (∀ s', Step s s' → s'.disk.usedSeen ≠ s.disk.usedSeen →
      ∃ t b idx n, (s.pc t).waits = some (b, idx, n) ∧ idx.i0 = s.usedId ∧ (s.buf b).disk = true ∧
        (s'.buf b).disk = false ∧ ∀ c, c ≠ b → (s'.buf c).disk = (s.buf c).disk) ∧
    (∀ s', Step s s' → s'.disk.usedSeen = s.disk.usedSeen →
      ∀ c, (s.buf c).disk = true → (s'.buf c).disk = true) ∧
    -- each request completes at most once, and once before the call returns
    (∀ n, s.hist.served n ≤ 1 ∧ s.hist.acked n ≤ 1) ∧
    (∀ t n, (s.pc t).finished = true → (s.pc t).number = some n →
      s.hist.served n = 1 ∧ s.hist.acked n = 1) ∧
    -- what the interrupt handler reads
    (s.disk.usedSeen ≠ s.disk.usedIdx →
      (s.disk.info s.usedId).b ≠ none ∧ (s.disk.info s.usedId).status = 0) ∧
    ∀ t, (∀ msg, s.pc t ≠ .panic msg) ∧ s.pc t ≠ .fault := by
  have hI := Invariant.reachable h
  refine ⟨⟨hI.layout.nodup, ?_, hI.layout.free⟩, fun i hi => hI.flight.taken hI.layout hi,
    fun s' hst => hI.availRing hst, fun s' hst hu => hI.completion hst hu,
    fun s' hst hu => Invariant.disk_kept hst hu, hI.once, fun t n hf hn => hI.finished hf hn, ?_, hI.ne_panic⟩
  · intro t u htu i ht hu
    exact htu (hI.layout.disjoint t u i ht hu)
  · intro hu
    obtain ⟨-, b, -, -, -, -, -, hb, hs⟩ := hI.flight.usedId hu
    refine ⟨?_, hs⟩
    rw [hb]
    simp

/-- The disk after `virtio_disk_init`, with two threads and a buffer. -/
def afterInit : State Bool Unit ℕ where
  disk := ⟨fun _ => ⟨.null, 0, 0, 0⟩, fun _ => 0, 0, fun _ => 0, 0, fun _ => true, 0,
    fun _ => ⟨none, 0⟩, fun _ => ⟨0, 0, 0⟩⟩
  dev := ⟨0, [], [], fun _ => 0⟩
  buf := fun _ => ⟨3, false, 7⟩
  lock := none
  pc := fun _ => .idle
  hist := ⟨fun _ => 0, 0, fun _ => 0, fun _ => 0⟩

theorem reachable_afterInit : (machine Bool Unit ℕ).Reachable afterInit :=
  .init ⟨fun _ _ => rfl, rfl, rfl, rfl, rfl, rfl, rfl, rfl, fun _ => rfl, rfl, fun _ => rfl,
    fun _ => rfl⟩

/-- A write that the device has completed and the driver has not looked at. -/
theorem virtio_protocol_write : ∃ s : State Bool Unit ℕ, (machine Bool Unit ℕ).Reachable s ∧
    s.disk.usedSeen ≠ s.disk.usedIdx ∧ (s.disk.info s.usedId).b ≠ none ∧
      (s.disk.info s.usedId).status = 0 := by
  have h₁ := reachable_afterInit.step (.call false () true rfl nofun)
  have h₂ := h₁.step (.lockAlloc false () true rfl rfl)
  have h₃ := h₂.step (.alloc false () true ⟨0, 1, 2⟩ _ rfl rfl)
  have h₄ := h₃.step (.format0 false () true ⟨0, 1, 2⟩ rfl)
  have h₅ := h₄.step (.format1 false () true ⟨0, 1, 2⟩ rfl)
  have h₆ := h₅.step (.format2 false () true ⟨0, 1, 2⟩ rfl)
  have h₇ := h₆.step (.record false () true ⟨0, 1, 2⟩ rfl)
  have h₈ := h₇.step (.ring false () true ⟨0, 1, 2⟩ rfl)
  have h₉ := h₈.step (.publish false () true ⟨0, 1, 2⟩ rfl)
  have h₁₀ := h₉.step (.take (by decide))
  have h₁₁ := h₁₀.step (.perform 0 0 () 0 (by decide) rfl rfl rfl)
  have h₁₂ := h₁₁.step (.complete 0 (by decide))
  exact ⟨_, h₁₂, by decide, (virtio_protocol h₁₂).2.2.2.2.2.2.2.1 (by decide)⟩

end Xv6.Virtio
