import Xv6.Virtio.Layout

/-! The requests that the device has been told of and the driver has not been told about: in the avail
ring, in the device, or in the used ring. -/
namespace Xv6.Virtio

open Lib

variable {T B D : Type} [DecidableEq T] {s s' : State T B D} {t u : T} {k k' : Pc B}

namespace State

/-- The entries of the avail ring that the device has not taken. -/
def queued (s : State T B D) : List ℕ :=
  Ring.window num s.disk.availRing s.dev.seen s.disk.availIdx

/-- The entries of the used ring that the driver has not looked at. -/
def used (s : State T B D) : List ℕ :=
  Ring.window num s.disk.usedRing s.disk.usedSeen s.disk.usedIdx

def flight (s : State T B D) : List ℕ := s.queued ++ s.dev.taken ++ s.dev.performed ++ s.used

end State

namespace Pc

/-- The call waits for its request, with this number, to finish. -/
def waits : Pc B → Option (B × Idx × ℕ)
  | wait b _ idx n | lockWait b _ idx n => some (b, idx, n)
  | _ => none

/-- What a call has told the interrupt handler and the device about its request. -/
def Armed (d : Disk B) (disk : B → Bool) : Pc B → Prop
  | ring b _ idx => disk b = true ∧ (d.info idx.i0).b = some b
  | publish b _ idx => disk b = true ∧ (d.info idx.i0).b = some b ∧
      d.availRing (Ring.slot num d.availIdx) = idx.i0
  | wait b _ idx _ | lockWait b _ idx _ => (d.info idx.i0).b = some b
  | panic _ | fault => False
  | _ => True

theorem Armed.congr {d e : Disk B} {f g : B → Bool} (h : k.Armed d f)
    (hi : ∀ i ∈ k.owned, (e.info i).b = (d.info i).b)
    (hr : k.holds = true → e.availRing = d.availRing ∧ e.availIdx = d.availIdx ∧
      ∀ b, k.buf = some b → g b = f b) : k.Armed e g := by
  cases k with
  | ring b write idx =>
    exact ⟨((hr rfl).2.2 b rfl).trans h.1, (hi _ (by simp [owned, Idx.list])).trans h.2⟩
  | publish b write idx =>
    obtain ⟨hr₁, hr₂, hr₃⟩ := hr rfl
    refine ⟨(hr₃ b rfl).trans h.1, (hi _ (by simp [owned, Idx.list])).trans h.2.1, ?_⟩
    rw [hr₁, hr₂]
    exact h.2.2
  | wait b write idx n | lockWait b write idx n =>
    exact (hi idx.i0 (by simp [owned, Idx.list])).trans h
  | panic msg | fault => exact h
  | _ => trivial

theorem mem_owned_of_waits {b : B} {idx : Idx} {n : ℕ} (h : k.waits = some (b, idx, n)) :
    idx.i0 ∈ k.owned := by
  cases k with
  | wait b' write idx' n' | lockWait b' write idx' n' =>
    cases h
    simp [owned, Idx.list]
  | _ => cases h

theorem buf_of_waits {b : B} {idx : Idx} {n : ℕ} (h : k.waits = some (b, idx, n)) :
    k.buf = some b := by
  cases k with
  | wait b' write idx' n' | lockWait b' write idx' n' =>
    cases h
    rfl
  | _ => cases h

theorem Armed.info {d : Disk B} {f : B → Bool} {b : B} {idx : Idx} {n : ℕ} (h : k.Armed d f)
    (hw : k.waits = some (b, idx, n)) : (d.info idx.i0).b = some b := by
  cases k with
  | wait b' write idx' n' | lockWait b' write idx' n' =>
    cases hw
    exact h
  | _ => cases hw

theorem Laid.of_waits {d : Disk B} {f : B → BitVec 64} {b : B} {idx : Idx} {n : ℕ} (h : k.Laid d f)
    (hw : k.waits = some (b, idx, n)) :
    ∃ write, Head d (f b) write idx ∧ Body d b write idx ∧ Tail d idx := by
  cases k with
  | wait b' write idx' n' | lockWait b' write idx' n' =>
    cases hw
    exact ⟨write, h⟩
  | _ => cases hw

end Pc

/-- A call waits for the request with first descriptor `i`, which has not finished. -/
def State.Pending (s : State T B D) (i : ℕ) : Prop :=
  ∃ t b idx n, (s.pc t).waits = some (b, idx, n) ∧ idx.i0 = i ∧ (s.buf b).disk = true

/-- The requests in flight are those that calls wait for, each once. -/
structure Flight (s : State T B D) : Prop where
  armed : ∀ t, (s.pc t).Armed s.disk fun b => (s.buf b).disk
  nodup : s.flight.Nodup
  mem : ∀ i, i ∈ s.flight ↔ s.Pending i
  status : ∀ i ∈ s.dev.performed ++ s.used, (s.disk.info i).status = 0

namespace Flight

omit [DecidableEq T] in
theorem mem_owned (h : Flight s) {i : ℕ} (hi : i ∈ s.flight) : ∃ t, i ∈ (s.pc t).owned := by
  obtain ⟨t, b, idx, n, hw, rfl, -⟩ := (h.mem i).mp hi
  exact ⟨t, Pc.mem_owned_of_waits hw⟩

omit [DecidableEq T] in
theorem not_mem (h : Flight s) (hO : Layout s) {i : ℕ} (hw : (s.pc t).waits = none)
    (hi : i ∈ (s.pc t).owned) : i ∉ s.flight := by
  intro hm
  obtain ⟨u, b, idx, n, hu, rfl, -⟩ := (h.mem i).mp hm
  obtain rfl := hO.disjoint u t idx.i0 (Pc.mem_owned_of_waits hu) hi
  rw [hw] at hu
  cases hu

omit [DecidableEq T] in
theorem length_le (h : Flight s) (hO : Layout s) : s.flight.length ≤ num := by
  have hsub : s.flight ⊆ List.range num := by
    intro i hi
    obtain ⟨t, ht⟩ := h.mem_owned hi
    exact List.mem_range.mpr (hO.bound t i ht)
  simpa using (h.nodup.subperm hsub).length_le

omit [DecidableEq T] in
theorem length_lt (h : Flight s) (hO : Layout s) {i : ℕ} (hw : (s.pc t).waits = none)
    (hi : i ∈ (s.pc t).owned) : s.flight.length < num := by
  have hnd : (i :: s.flight).Nodup := List.nodup_cons.mpr ⟨h.not_mem hO hw hi, h.nodup⟩
  have hsub : i :: s.flight ⊆ List.range num := by
    intro j hj
    rcases List.mem_cons.mp hj with rfl | hj
    · exact List.mem_range.mpr (hO.bound t j hi)
    · obtain ⟨u, hu⟩ := h.mem_owned hj
      exact List.mem_range.mpr (hO.bound u j hu)
  simpa using (hnd.subperm hsub).length_le

omit [DecidableEq T] in
theorem count_queued_le : Ring.count s.dev.seen s.disk.availIdx ≤ s.flight.length := by
  simp [State.flight, State.queued]

/-- A thread moves, and the rings do not change. It may change what belongs to it while it does not
wait. -/
theorem goto (h : Flight s) (hL : Locks s) (hO : Layout s) (hpc : s.pc t = k')
    (hp : s'.pc = Function.update s.pc t k) (hdev : s'.dev = s.dev) (hq : s'.queued = s.queued)
    (hu : s'.used = s.used)
    (hinfo : ∀ i, s'.disk.info i = s.disk.info i ∨ i ∈ k'.owned ∧ k'.waits = none)
    (hbuf : ∀ b, (s'.buf b).disk = (s.buf b).disk ∨ k'.buf = some b ∧ k'.waits = none)
    (hr : k'.holds = true ∨ s'.disk = s.disk ∧ s'.buf = s.buf)
    (hw : ∀ b idx n, k.waits = some (b, idx, n) ∧ (s'.buf b).disk = true ↔
      k'.waits = some (b, idx, n) ∧ (s.buf b).disk = true)
    (hk : k'.Armed s.disk (fun b => (s.buf b).disk) → k.Armed s'.disk fun b => (s'.buf b).disk) :
    Flight s' := by
  have hself : s'.pc t = k := by rw [hp, Function.update_self]
  have hne : ∀ u, u ≠ t → s'.pc u = s.pc u := fun u hu => by rw [hp, Function.update_of_ne hu]
  have hflight : s'.flight = s.flight := by rw [State.flight, hq, hu, hdev, State.flight]
  have hother : ∀ u b, u ≠ t → (s.pc u).buf = some b → (s'.buf b).disk = (s.buf b).disk := by
    intro u b hu hb
    rcases hbuf b with hs | ⟨hb', -⟩
    · exact hs
    · refine (hu (hL.buf u t b hb ?_)).elim
      rw [hpc]
      exact hb'
  constructor
  · intro u
    by_cases hu : u = t
    · rw [hu, hself]
      apply hk
      rw [← hpc]
      exact h.armed t
    · rw [hne u hu]
      refine (h.armed u).congr (fun i hi => ?_) fun hh => ?_
      · rcases hinfo i with hs | ⟨hi', -⟩
        · rw [hs]
        · refine (hu (hO.disjoint u t i hi ?_)).elim
          rw [hpc]
          exact hi'
      · rcases hr with hr | ⟨hr₁, hr₂⟩
        · rw [← hpc, ← hL.lock] at hr
          rw [← hL.lock, hr] at hh
          exact (hu (Option.some.inj hh).symm).elim
        · exact ⟨by rw [hr₁], by rw [hr₁], fun _ _ => by rw [hr₂]⟩
  · rw [hflight]
    exact h.nodup
  · intro i
    rw [hflight, h.mem]
    constructor
    · rintro ⟨u, b, idx, n, hu, hi, hb⟩
      refine ⟨u, b, idx, n, ?_⟩
      by_cases hut : u = t
      · rw [hut, hpc] at hu
        obtain ⟨hk₁, hk₂⟩ := (hw b idx n).mpr ⟨hu, hb⟩
        rw [hut, hself]
        exact ⟨hk₁, hi, hk₂⟩
      · rw [hne u hut, hother u b hut (Pc.buf_of_waits hu)]
        exact ⟨hu, hi, hb⟩
    · rintro ⟨u, b, idx, n, hu, hi, hb⟩
      refine ⟨u, b, idx, n, ?_⟩
      by_cases hut : u = t
      · rw [hut, hself] at hu
        obtain ⟨hk₁, hk₂⟩ := (hw b idx n).mp ⟨hu, hb⟩
        rw [hut, hpc]
        exact ⟨hk₁, hi, hk₂⟩
      · rw [hne u hut] at hu
        rw [hother u b hut (Pc.buf_of_waits hu)] at hb
        exact ⟨hu, hi, hb⟩
  · intro i hi
    rw [hdev, hu] at hi
    rcases hinfo i with hs | ⟨hi', hw'⟩
    · rw [hs]
      exact h.status i hi
    · refine (h.not_mem (t := t) hO (by rw [hpc]; exact hw') (by rw [hpc]; exact hi') ?_).elim
      rw [State.flight, List.append_assoc]
      exact List.mem_append_right _ hi

theorem publish (h : Flight s) (hL : Locks s) (hO : Layout s) {b : B} {write : Bool} {idx : Idx}
    {hist : History} {n : ℕ} (hpc : s.pc t = .publish b write idx) :
    Flight { s.goto t (.wait b write idx n) with
      disk := { s.disk with availIdx := s.disk.availIdx + 1 }, hist := hist } := by
  obtain ⟨hdisk, hinfo, hring⟩ : (Pc.publish b write idx).Armed s.disk fun b => (s.buf b).disk := by
    rw [← hpc]
    exact h.armed t
  have hw : (s.pc t).waits = none := by rw [hpc]; rfl
  have hown : idx.i0 ∈ (s.pc t).owned := by simp [hpc, Pc.owned, Idx.list]
  have hlt := h.length_lt hO hw hown
  have hq : Ring.window num s.disk.availRing s.dev.seen (s.disk.availIdx + 1) =
      s.queued ++ [idx.i0] := by
    rw [Ring.window_succ, hring, State.queued]
    have hc := lt_of_le_of_lt count_queued_le hlt
    unfold num at hc
    omega
  have hperm : (State.flight { s.goto t (.wait b write idx n) with
      disk := { s.disk with availIdx := s.disk.availIdx + 1 }, hist := hist }).Perm
      (idx.i0 :: s.flight) := by
    simp only [State.flight, State.queued, State.goto, hq, List.append_assoc, List.singleton_append]
    exact List.perm_middle
  constructor
  · intro u
    by_cases hu : u = t
    · simp only [State.goto, hu, Function.update_self]
      exact hinfo
    · simp only [State.goto, Function.update_of_ne hu]
      refine (h.armed u).congr (fun _ _ => rfl) fun hh => ?_
      have ht : s.lock = some t := (hL.lock t).mpr (by rw [hpc]; rfl)
      rw [← hL.lock, ht] at hh
      exact (hu (Option.some.inj hh).symm).elim
  · exact hperm.nodup_iff.mpr (List.nodup_cons.mpr ⟨h.not_mem hO hw hown, h.nodup⟩)
  · intro i
    rw [hperm.mem_iff, List.mem_cons, h.mem]
    constructor
    · rintro (rfl | ⟨u, b', idx', n', hu, hi, hb⟩)
      · exact ⟨t, b, idx, n, by simp [State.goto, Pc.waits], rfl, hdisk⟩
      · have hut : u ≠ t := by
          rintro rfl
          rw [hw] at hu
          cases hu
        exact ⟨u, b', idx', n', by simpa [State.goto, hut] using hu, hi, hb⟩
    · rintro ⟨u, b', idx', n', hu, hi, hb⟩
      by_cases hut : u = t
      · rw [hut] at hu
        simp only [State.goto, Function.update_self, Pc.waits] at hu
        cases hu
        exact Or.inl hi.symm
      · simp only [State.goto, Function.update_of_ne hut] at hu
        exact Or.inr ⟨u, b', idx', n', hu, hi, hb⟩
  · exact h.status

omit [DecidableEq T] in
theorem used_eq (hu : s.disk.usedSeen ≠ s.disk.usedIdx) :
    s.used = s.usedId :: Ring.window num s.disk.usedRing (s.disk.usedSeen + 1) s.disk.usedIdx :=
  Ring.window_pop hu

omit [DecidableEq T] in
theorem usedId (h : Flight s) (hu : s.disk.usedSeen ≠ s.disk.usedIdx) :
    ∃ t b idx n, (s.pc t).waits = some (b, idx, n) ∧ idx.i0 = s.usedId ∧ (s.buf b).disk = true ∧
      (s.disk.info s.usedId).b = some b ∧ (s.disk.info s.usedId).status = 0 := by
  have hm : s.usedId ∈ s.used := by
    rw [used_eq hu]
    exact List.mem_cons_self
  obtain ⟨t, b, idx, n, hw, hi, hb⟩ := (h.mem _).mp (List.mem_append_right _ hm)
  refine ⟨t, b, idx, n, hw, hi, hb, ?_, h.status _ (List.mem_append_right _ hm)⟩
  rw [← hi]
  exact (h.armed t).info hw

omit [DecidableEq T] in
theorem intr [DecidableEq B] (h : Flight s) (hL : Locks s) (hO : Layout s) {b : B} {hist : History}
    (hpc : s.pc t = .intr) (hu : s.disk.usedSeen ≠ s.disk.usedIdx)
    (hb : (s.disk.info s.usedId).b = some b) :
    Flight { s with
      buf := Function.update s.buf b { s.buf b with disk := false }
      disk := { s.disk with usedSeen := s.disk.usedSeen + 1 }, hist := hist } := by
  obtain ⟨v, b', idx, n, hw, hi, hd, hinfo, -⟩ := h.usedId hu
  obtain rfl : b' = b := Option.some.inj (hinfo.symm.trans hb)
  have hperm : s.flight.Perm (s.usedId :: State.flight { s with
      buf := Function.update s.buf b' { s.buf b' with disk := false }
      disk := { s.disk with usedSeen := s.disk.usedSeen + 1 }, hist := hist }) := by
    rw [State.flight, used_eq hu]
    exact List.perm_middle
  obtain ⟨hnew, hnd⟩ := List.nodup_cons.mp (hperm.nodup_iff.mp h.nodup)
  constructor
  · intro u
    refine (h.armed u).congr (fun _ _ => rfl) fun hh => ⟨rfl, rfl, fun c hc => ?_⟩
    -- only the handler has the lock
    have ht : s.lock = some t := (hL.lock t).mpr (by rw [hpc]; rfl)
    rw [← hL.lock, ht] at hh
    obtain rfl := Option.some.inj hh
    rw [hpc] at hc
    cases hc
  · exact hnd
  · intro i
    have hmem : ∀ i, i ∈ s.flight ↔ i = s.usedId ∨ i ∈ State.flight { s with
        buf := Function.update s.buf b' { s.buf b' with disk := false }
        disk := { s.disk with usedSeen := s.disk.usedSeen + 1 }, hist := hist } := by
      intro i
      rw [hperm.mem_iff, List.mem_cons]
    constructor
    · intro hm
      obtain ⟨u, c, idx', n', hu', hi', hc⟩ := (h.mem i).mp ((hmem i).mpr (Or.inr hm))
      refine ⟨u, c, idx', n', hu', hi', ?_⟩
      have hne : c ≠ b' := by
        rintro rfl
        obtain rfl := hL.buf u v c (Pc.buf_of_waits hu') (Pc.buf_of_waits hw)
        rw [hw] at hu'
        cases hu'
        rw [← hi', hi] at hm
        exact hnew hm
      simpa [hne] using hc
    · rintro ⟨u, c, idx', n', hu', hi', hc⟩
      have hne : c ≠ b' := by
        rintro rfl
        simp at hc
      have hc : (s.buf c).disk = true := by simpa [hne] using hc
      rcases (hmem i).mp ((h.mem i).mpr ⟨u, c, idx', n', hu', hi', hc⟩) with he | hm
      · refine (hne ?_).elim
        obtain rfl := hO.disjoint u v i (hi' ▸ Pc.mem_owned_of_waits hu')
          (by rw [he, ← hi]; exact Pc.mem_owned_of_waits hw)
        rw [hw] at hu'
        cases hu'
        rfl
      · exact hm
  · intro i hm
    refine h.status i ?_
    rw [used_eq hu]
    rcases List.mem_append.mp hm with hm | hm
    · exact List.mem_append_left _ hm
    · exact List.mem_append_right _ (List.mem_cons_of_mem _ hm)

omit [DecidableEq T] in
theorem device (h : Flight s) (hp : s'.pc = s.pc) (hbuf : ∀ b, (s'.buf b).disk = (s.buf b).disk)
    (hring : s'.disk.availRing = s.disk.availRing) (hidx : s'.disk.availIdx = s.disk.availIdx)
    (hinfo : ∀ i, (s'.disk.info i).b = (s.disk.info i).b) (hf : s'.flight.Perm s.flight)
    (hst : ∀ i ∈ s'.dev.performed ++ s'.used, (s'.disk.info i).status = 0) : Flight s' := by
  constructor
  · intro t
    rw [hp]
    exact (h.armed t).congr (fun i _ => hinfo i) fun _ => ⟨hring, hidx, fun b _ => hbuf b⟩
  · exact hf.nodup_iff.mpr h.nodup
  · intro i
    rw [hf.mem_iff, h.mem, State.Pending, State.Pending]
    simp only [hp, hbuf]
  · exact hst

omit [DecidableEq T] in
/-- The device finds the chain of a request that it has taken. -/
theorem taken (h : Flight s) (hO : Layout s) {i : ℕ} (hi : i ∈ s.dev.taken) :
    ∃ t b write idx n, (s.pc t).waits = some (b, idx, n) ∧ idx.i0 = i ∧
      Head s.disk (s.buf b).sector write idx ∧ Body s.disk b write idx ∧ Tail s.disk idx := by
  have hm : i ∈ s.flight := by simp [State.flight, hi]
  obtain ⟨t, b, idx, n, hw, hi, -⟩ := (h.mem i).mp hm
  obtain ⟨write, hl⟩ := (hO.laid t).of_waits hw
  exact ⟨t, b, write, idx, n, hw, hi, hl⟩

omit [DecidableEq T] in
theorem window_complete (h : Flight s) (hO : Layout s) {i : ℕ} (hm : i ∈ s.dev.performed) :
    Ring.window num (Function.update s.disk.usedRing (Ring.slot num s.disk.usedIdx) i)
      s.disk.usedSeen (s.disk.usedIdx + 1) = s.used ++ [i] := by
  have hlt : Ring.count s.disk.usedSeen s.disk.usedIdx < num := by
    have hle := h.length_le hO
    have hpos := List.length_pos_of_mem hm
    simp only [State.flight, List.length_append, State.used, Ring.length_window] at hle
    omega
  have hlt' : Ring.count s.disk.usedSeen s.disk.usedIdx + 1 < 2 ^ 16 := by
    unfold num at hlt
    omega
  rw [Ring.window_succ hlt', Ring.window_update (by decide) hlt, Function.update_self, State.used]

/-- The requests in flight stay those that calls wait for, each once. -/
theorem step [DecidableEq B] (h : Flight s) (hL : Locks s) (hO : Layout s) (hst : Step s s') :
    Flight s' := by
  cases hst with
  | alloc t b write idx d hpc ha =>
    obtain ⟨rfl, -⟩ := alloc3Desc_some ha
    exact h.goto hL hO hpc rfl rfl rfl rfl (fun _ => Or.inl rfl) (fun _ => Or.inl rfl) (Or.inl rfl)
      (fun _ _ _ => Iff.rfl) fun _ => trivial
  | allocSleep t b write d hpc ha =>
    obtain ⟨l, hs, -⟩ := alloc3Desc_none ha
    refine h.goto hL hO hpc rfl rfl ?_ ?_ (fun _ => Or.inl (by rw [hs.info])) (fun _ => Or.inl rfl)
      (Or.inl rfl) (fun _ _ _ => Iff.rfl) fun _ => trivial
    · simp only [State.queued, State.goto, hs.availRing, hs.availIdx]
    · simp only [State.used, hs.usedRing, hs.usedSeen, hs.usedIdx]
  | allocPanic t b write msg hpc ha => exact (alloc3Desc_ne_error _ _ ha).elim
  | format2 t b write idx hpc =>
    refine h.goto hL hO hpc rfl rfl rfl rfl (fun i => ?_) (fun _ => Or.inl rfl) (Or.inl rfl)
      (fun _ _ _ => Iff.rfl) fun _ => trivial
    by_cases hi : i = idx.i0
    · exact Or.inr ⟨by simp [hi, Pc.owned, Idx.list], rfl⟩
    · exact Or.inl (Function.update_of_ne hi _ _)
  | record t b write idx hpc =>
    refine h.goto hL hO hpc rfl rfl rfl rfl (fun i => ?_) (fun c => ?_) (Or.inl rfl)
      (fun _ _ _ => ?_) fun _ => ?_
    · by_cases hi : i = idx.i0
      · exact Or.inr ⟨by simp [hi, Pc.owned, Idx.list], rfl⟩
      · exact Or.inl (Function.update_of_ne hi _ _)
    · by_cases hc : c = b
      · exact Or.inr ⟨by rw [hc]; rfl, rfl⟩
      · exact Or.inl (by simp [hc])
    · simp [Pc.waits]
    · exact ⟨by simp, by simp⟩
  | ring t b write idx hpc =>
    have hlt := h.length_lt (t := t) (i := idx.i0) hO (by rw [hpc]; rfl)
      (by simp [hpc, Pc.owned, Idx.list])
    refine h.goto hL hO hpc rfl rfl ?_ rfl (fun _ => Or.inl rfl) (fun _ => Or.inl rfl) (Or.inl rfl)
      (fun _ _ _ => Iff.rfl) fun hk => ⟨hk.1, hk.2, by simp⟩
    exact Ring.window_update (by decide) (lt_of_le_of_lt count_queued_le hlt) _
  | publish t b write idx hpc => exact h.publish hL hO hpc
  | waitDone t b write idx n hpc hd =>
    refine h.goto hL hO hpc rfl rfl rfl rfl (fun _ => Or.inl rfl) (fun _ => Or.inl rfl) (Or.inl rfl)
      (fun b' idx' n' => ?_) fun _ => trivial
    constructor
    · rintro ⟨hw, -⟩
      cases hw
    · rintro ⟨hw, hb⟩
      cases hw
      rw [hd] at hb
      cases hb
  | clear t b write idx n hpc =>
    refine h.goto hL hO hpc rfl rfl rfl rfl (fun i => ?_) (fun _ => Or.inl rfl) (Or.inl rfl)
      (fun _ _ _ => Iff.rfl) fun _ => trivial
    by_cases hi : i = idx.i0
    · exact Or.inr ⟨by simp [hi, Pc.owned, Idx.list], rfl⟩
    · exact Or.inl (Function.update_of_ne hi _ _)
  | freeChain t b write idx n i d hpc hf =>
    rw [hO.freeDesc_chain hpc] at hf
    cases hf
    refine h.goto hL hO hpc rfl rfl rfl rfl (fun _ => Or.inl rfl) (fun _ => Or.inl rfl) (Or.inl rfl)
      (fun _ _ _ => ?_) fun _ => ?_
    · split_ifs
      · exact Iff.rfl
      · exact Iff.rfl
    · split_ifs
      · trivial
      · trivial
  | freePanic t b write idx n i msg hpc hf =>
    rw [hO.freeDesc_chain hpc] at hf
    cases hf
  | intr t b hpc hu hs hb => exact h.intr hL hO hpc hu hb
  | intrStatus t hpc hu hs =>
    obtain ⟨-, -, -, -, -, -, -, -, hs'⟩ := h.usedId hu
    exact (hs hs').elim
  | intrNull t hpc hu hs hb =>
    obtain ⟨-, b, -, -, -, -, -, hb', -⟩ := h.usedId hu
    rw [hb'] at hb
    cases hb
  | take hu =>
    refine h.device rfl (fun _ => rfl) rfl rfl (fun _ => rfl) ?_ h.status
    have hq : s.queued = s.disk.availRing (Ring.slot num s.dev.seen) ::
        Ring.window num s.disk.availRing (s.dev.seen + 1) s.disk.availIdx := Ring.window_pop hu
    rw [State.flight, State.flight, hq]
    simp only [State.queued, State.used, List.append_assoc, List.cons_append, List.nil_append]
    rw [← List.append_assoc]
    exact List.perm_middle.trans (by rw [List.append_assoc])
  | perform i j b l hm h0 h1 h2 =>
    have hl : l = i := by
      obtain ⟨t, c, write, idx, n, -, rfl, hhead, hbody, htail⟩ := h.taken hO hm
      rw [hhead.2, hbody, htail] at h2
      cases h2
      rfl
    refine h.device (pc_transfer ..) (fun _ => disk_transfer ..) rfl rfl (fun m => ?_) ?_ ?_
    · by_cases hm : m = l
      · simp [hm]
      · simp [hm]
    · have he := List.perm_cons_erase hm
      simp only [State.flight, State.queued, State.used, seen_transfer]
      refine List.perm_iff_count.mpr fun a => ?_
      have := he.count_eq a
      simp only [List.count_append, List.count_cons, List.count_nil] at this ⊢
      omega
    · intro m hm
      by_cases hml : m = l
      · simp [hml]
      · have hm' : m ∈ s.dev.performed ++ s.used := by
          simpa [State.used, hl ▸ hml] using hm
        simpa [hml] using h.status m hm'
  | complete i hm =>
    have hu := h.window_complete hO hm
    refine h.device rfl (fun _ => rfl) rfl rfl (fun _ => rfl) ?_ ?_
    · have he := List.perm_cons_erase hm
      simp only [State.flight, State.queued]
      rw [State.used, hu]
      refine List.perm_iff_count.mpr fun a => ?_
      have := he.count_eq a
      simp only [List.count_append, List.count_cons, List.count_nil] at this ⊢
      omega
    · intro m hm'
      rw [State.used, hu] at hm'
      apply h.status
      simp only [List.mem_append, List.mem_singleton] at hm' ⊢
      rcases hm' with hm' | hm' | rfl
      · exact Or.inl (List.mem_of_mem_erase hm')
      · exact Or.inr hm'
      · exact Or.inl hm
  | other b blockno data hb =>
    refine h.device rfl (fun c => ?_) rfl rfl (fun _ => rfl) (.refl _) h.status
    by_cases hc : c = b
    · simp [hc]
    · simp [hc]
  | _ =>
    exact h.goto hL hO ‹_› rfl rfl rfl rfl (fun _ => Or.inl rfl) (fun _ => Or.inl rfl)
      (by first | exact Or.inl rfl | exact Or.inr ⟨rfl, rfl⟩)
      (by exact fun _ _ _ => Iff.rfl) (by exact fun hk => hk)

end Flight

end Xv6.Virtio
