import Xv6.Virtio.Flight

/-! Each request is completed once, and the call that made it is told once, before it returns. -/
namespace Xv6.Virtio

open Lib

variable {T B D : Type} [DecidableEq T] {s s' : State T B D} {t u : T} {k k' : Pc B}

namespace Pc

def number : Pc B → Option ℕ
  | wait _ _ _ n | lockWait _ _ _ n | clear _ _ _ n | freeChain _ _ _ n _ | exit _ n => some n
  | _ => none

def finished : Pc B → Bool
  | clear .. | freeChain .. | exit .. => true
  | _ => false

theorem number_of_waits {b : B} {idx : Idx} {n : ℕ} (h : k.waits = some (b, idx, n)) :
    k.number = some n := by
  cases k with
  | wait b' write idx' n' | lockWait b' write idx' n' =>
    cases h
    rfl
  | _ => cases h

theorem waits_of_finished (h : k.finished = true) : k.waits = none := by
  cases k with
  | wait b' write idx' n' | lockWait b' write idx' n' => cases h
  | _ => rfl

end Pc

structure Requests (s : State T B D) : Prop where
  serial : ∀ t b idx n, (s.pc t).waits = some (b, idx, n) → s.hist.serial idx.i0 = n
  number : ∀ t n, (s.pc t).number = some n → n < s.hist.count
  distinct : ∀ t u n, (s.pc t).number = some n → (s.pc u).number = some n → t = u
  pending : ∀ t b idx n, (s.pc t).waits = some (b, idx, n) → (s.buf b).disk = true →
    s.hist.acked n = 0 ∧ s.hist.served n = if idx.i0 ∈ s.used then 1 else 0
  done : ∀ n < s.hist.count, (∀ t b idx, (s.pc t).waits = some (b, idx, n) → (s.buf b).disk = false) →
    s.hist.served n = 1 ∧ s.hist.acked n = 1
  fresh : ∀ n, s.hist.count ≤ n → s.hist.served n = 0 ∧ s.hist.acked n = 0

namespace Requests

theorem goto (h : Requests s) (hL : Locks s) (hpc : s.pc t = k')
    (hp : s'.pc = Function.update s.pc t k) (hh : s'.hist = s.hist) (hu : s'.used = s.used)
    (hbuf : ∀ b, (s'.buf b).disk = (s.buf b).disk ∨ k'.buf = some b ∧ k'.waits = none)
    (hn : ∀ n, k.number = some n → k'.number = some n)
    (hw : ∀ b idx n, k.waits = some (b, idx, n) → k'.waits = some (b, idx, n))
    (hd : ∀ b idx n, k'.waits = some (b, idx, n) →
      k.waits = some (b, idx, n) ∨ (s.buf b).disk = false) : Requests s' := by
  have hself : s'.pc t = k := by rw [hp, Function.update_self]
  have hne : ∀ u, u ≠ t → s'.pc u = s.pc u := fun u hu => by rw [hp, Function.update_of_ne hu]
  have hnum : ∀ u n, (s'.pc u).number = some n → (s.pc u).number = some n := by
    intro u n hu
    by_cases hut : u = t
    · rw [hut, hself] at hu
      rw [hut, hpc]
      exact hn n hu
    · rwa [hne u hut] at hu
  have hwaits : ∀ u b idx n, (s'.pc u).waits = some (b, idx, n) →
      (s.pc u).waits = some (b, idx, n) := by
    intro u b idx n hu
    by_cases hut : u = t
    · rw [hut, hself] at hu
      rw [hut, hpc]
      exact hw b idx n hu
    · rwa [hne u hut] at hu
  have hsame : ∀ u b idx n, (s.pc u).waits = some (b, idx, n) →
      (s'.buf b).disk = (s.buf b).disk := by
    intro u b idx n hu
    rcases hbuf b with hb | ⟨hb, hk'⟩
    · exact hb
    · obtain rfl := hL.buf u t b (Pc.buf_of_waits hu) (by rw [hpc]; exact hb)
      rw [hpc, hk'] at hu
      cases hu
  constructor
  · intro u b idx n hu
    rw [hh]
    exact h.serial u b idx n (hwaits u b idx n hu)
  · intro u n hu
    rw [hh]
    exact h.number u n (hnum u n hu)
  · intro u v n hu hv
    exact h.distinct u v n (hnum u n hu) (hnum v n hv)
  · intro u b idx n hw' hb
    have hw₀ := hwaits u b idx n hw'
    rw [hh, hu]
    rw [hsame u b idx n hw₀] at hb
    exact h.pending u b idx n hw₀ hb
  · intro n hlt hall
    rw [hh] at hlt ⊢
    refine h.done n hlt fun u b idx hu' => ?_
    by_cases hut : u = t
    · have hk' := hu'
      rw [hut, hpc] at hk'
      rcases hd b idx n hk' with hk | hb
      · rw [← hsame u b idx n hu']
        exact hall t b idx (by rw [hself]; exact hk)
      · exact hb
    · rw [← hsame u b idx n hu']
      exact hall u b idx (by rw [hne u hut]; exact hu')
  · rw [hh]
    exact h.fresh

theorem publish (h : Requests s) (hO : Layout s) (hF : Flight s) {b : B}
    {write : Bool} {idx : Idx} (hpc : s.pc t = .publish b write idx) :
    Requests { s.goto t (.wait b write idx s.hist.count) with
      disk := { s.disk with availIdx := s.disk.availIdx + 1 }
      hist := { s.hist with
        serial := Function.update s.hist.serial idx.i0 s.hist.count
        count := s.hist.count + 1 } } := by
  have hown : idx.i0 ∈ (s.pc t).owned := by simp [hpc, Pc.owned, Idx.list]
  have hdisk : (s.buf b).disk = true := by
    have := hF.armed t
    rw [hpc] at this
    exact this.1
  have hnot : idx.i0 ∉ s.used := by
    intro hm
    exact hF.not_mem (t := t) hO (by rw [hpc]; rfl) hown (List.mem_append_right _ hm)
  have hne : ∀ u b' idx' n, u ≠ t → (s.pc u).waits = some (b', idx', n) → idx'.i0 ≠ idx.i0 := by
    intro u b' idx' n hu hw he
    exact hu (hO.disjoint u t idx'.i0 (Pc.mem_owned_of_waits hw) (he ▸ hown))
  constructor
  · intro u b' idx' n hw
    by_cases hu : u = t
    · simp only [State.goto, hu, Function.update_self, Pc.waits] at hw
      cases hw
      simp
    · simp only [State.goto, Function.update_of_ne hu] at hw
      simpa [hne u b' idx' n hu hw] using h.serial u b' idx' n hw
  · intro u n hn
    by_cases hu : u = t
    · simp only [State.goto, hu, Function.update_self, Pc.number] at hn
      cases hn
      exact Nat.lt_succ_self _
    · simp only [State.goto, Function.update_of_ne hu] at hn
      exact Nat.lt_succ_of_lt (h.number u n hn)
  · intro u v n hu hv
    by_cases hut : u = t
    · by_cases hvt : v = t
      · exact hut.trans hvt.symm
      · simp only [State.goto, hut, Function.update_self, Pc.number] at hu
        cases hu
        simp only [State.goto, Function.update_of_ne hvt] at hv
        exact (Nat.lt_irrefl _ (h.number v _ hv)).elim
    · simp only [State.goto, Function.update_of_ne hut] at hu
      by_cases hvt : v = t
      · simp only [State.goto, hvt, Function.update_self, Pc.number] at hv
        cases hv
        exact (Nat.lt_irrefl _ (h.number u _ hu)).elim
      · simp only [State.goto, Function.update_of_ne hvt] at hv
        exact h.distinct u v n hu hv
  · intro u b' idx' n hw hb
    by_cases hu : u = t
    · simp only [State.goto, hu, Function.update_self, Pc.waits] at hw
      cases hw
      obtain ⟨hs, ha⟩ := h.fresh _ le_rfl
      refine ⟨ha, ?_⟩
      rw [if_neg]
      · exact hs
      · exact hnot
    · simp only [State.goto, Function.update_of_ne hu] at hw
      exact h.pending u b' idx' n hw hb
  · intro n hlt hall
    rcases Nat.lt_succ_iff_lt_or_eq.mp hlt with hlt | rfl
    · refine h.done n hlt fun u b' idx' hu => ?_
      have hut : u ≠ t := by
        rintro rfl
        rw [hpc] at hu
        cases hu
      exact hall u b' idx' (by simpa [State.goto, hut] using hu)
    · have hb : (s.buf b).disk = false := hall t b idx (by simp [State.goto, Pc.waits])
      rw [hdisk] at hb
      cases hb
  · intro n hn
    exact h.fresh n (Nat.le_of_succ_le hn)

omit [DecidableEq T] in
theorem intr [DecidableEq B] (h : Requests s) (hL : Locks s) (hO : Layout s) (hF : Flight s) {b : B}
    (hu : s.disk.usedSeen ≠ s.disk.usedIdx) (hb : (s.disk.info s.usedId).b = some b) :
    Requests { s with
      buf := Function.update s.buf b { s.buf b with disk := false }
      disk := { s.disk with usedSeen := s.disk.usedSeen + 1 }
      hist := { s.hist with
        acked := Function.update s.hist.acked (s.hist.serial s.usedId)
          (s.hist.acked (s.hist.serial s.usedId) + 1) } } := by
  obtain ⟨v, b', idx, m, hw, hi, hd, hinfo, -⟩ := hF.usedId hu
  obtain rfl : b' = b := Option.some.inj (hinfo.symm.trans hb)
  have hser := h.serial v b' idx m hw
  rw [hi] at hser
  have hused := Flight.used_eq hu
  have hm : idx.i0 ∈ s.used := by
    rw [hused, hi]
    exact List.mem_cons_self
  obtain ⟨hack, hserved⟩ := h.pending v b' idx m hw hd
  rw [if_pos hm] at hserved
  have hother : ∀ u c idx' n, (s.pc u).waits = some (c, idx', n) → u ≠ v → c ≠ b' ∧ n ≠ m := by
    intro u c idx' n hu' huv
    refine ⟨?_, ?_⟩
    · rintro rfl
      exact huv (hL.buf u v c (Pc.buf_of_waits hu') (Pc.buf_of_waits hw))
    · rintro rfl
      exact huv (h.distinct u v n (Pc.number_of_waits hu') (Pc.number_of_waits hw))
  rw [hser]
  constructor
  · exact h.serial
  · exact h.number
  · exact h.distinct
  · intro u c idx' n hu' hc
    have hcb : c ≠ b' := by
      rintro rfl
      simp at hc
    have huv : u ≠ v := by
      rintro rfl
      rw [hw] at hu'
      cases hu'
      exact hcb rfl
    have hi' : idx'.i0 ≠ s.usedId := by
      intro he
      exact huv (hO.disjoint u v idx'.i0 (Pc.mem_owned_of_waits hu')
        (by rw [he, ← hi]; exact Pc.mem_owned_of_waits hw))
    obtain ⟨hack', hserved'⟩ := h.pending u c idx' n hu' (by simpa [hcb] using hc)
    refine ⟨by simpa [(hother u c idx' n hu' huv).2] using hack', hserved'.trans ?_⟩
    rw [hused]
    exact if_congr (by simp [State.used, hi']) rfl rfl
  · intro n hlt hall
    by_cases hn : n = m
    · subst hn
      exact ⟨hserved, by simp [hack]⟩
    · simp only [Function.update_of_ne hn]
      refine h.done n hlt fun u c idx' hu' => ?_
      have huv : u ≠ v := by
        rintro rfl
        rw [hw] at hu'
        cases hu'
        exact hn rfl
      simpa [(hother u c idx' n hu' huv).1] using hall u c idx' hu'
  · intro n hn
    have hlt := h.number v m (Pc.number_of_waits hw)
    have hne : n ≠ m := by
      rintro rfl
      exact Nat.not_lt.mpr hn hlt
    simpa [hne] using h.fresh n hn

omit [DecidableEq T] in
theorem complete (h : Requests s) (hO : Layout s) (hF : Flight s) {i : ℕ}
    (hm : i ∈ s.dev.performed) :
    Requests { s with
      disk := { s.disk with
        usedRing := Function.update s.disk.usedRing (Ring.slot num s.disk.usedIdx) i
        usedIdx := s.disk.usedIdx + 1 }
      dev := { s.dev with performed := s.dev.performed.erase i }
      hist := { s.hist with
        served := Function.update s.hist.served (s.hist.serial i)
          (s.hist.served (s.hist.serial i) + 1) } } := by
  obtain ⟨v, b, idx, m, hw, rfl, hd⟩ := (hF.mem i).mp (by simp [State.flight, hm])
  have hser := h.serial v b idx m hw
  have hused := hF.window_complete hO hm
  have hnot : idx.i0 ∉ s.used := by
    have hnd := hF.nodup
    rw [State.flight, List.append_assoc] at hnd
    obtain ⟨-, -, hdis⟩ := List.nodup_append.mp (List.nodup_append.mp hnd).2.1
    intro hu
    exact hdis _ hm _ hu rfl
  obtain ⟨hack, hserved⟩ := h.pending v b idx m hw hd
  rw [if_neg hnot] at hserved
  rw [hser]
  constructor
  · exact h.serial
  · exact h.number
  · exact h.distinct
  · intro u c idx' n hu hc
    obtain ⟨hack', hserved'⟩ := h.pending u c idx' n hu hc
    refine ⟨hack', ?_⟩
    rw [State.used, hused]
    by_cases huv : u = v
    · rw [huv, hw] at hu
      cases hu
      simp [hserved]
    · have hn : n ≠ m := by
        rintro rfl
        exact huv (h.distinct u v n (Pc.number_of_waits hu) (Pc.number_of_waits hw))
      have hi : idx'.i0 ≠ idx.i0 := by
        intro he
        exact huv (hO.disjoint u v idx'.i0 (Pc.mem_owned_of_waits hu)
          (he ▸ Pc.mem_owned_of_waits hw))
      simpa [hn, hi] using hserved'
  · intro n hlt hall
    have hn : n ≠ m := by
      rintro rfl
      have hb : (s.buf b).disk = false := hall v b idx hw
      rw [hd] at hb
      cases hb
    simpa [hn] using h.done n hlt hall
  · intro n hn
    have hlt := h.number v m (Pc.number_of_waits hw)
    have hne : n ≠ m := by
      rintro rfl
      exact Nat.not_lt.mpr hn hlt
    simpa [hne] using h.fresh n hn

omit [DecidableEq T] in
theorem same (h : Requests s) (hp : s'.pc = s.pc) (hh : s'.hist = s.hist) (hu : s'.used = s.used)
    (hb : ∀ b, (s'.buf b).disk = (s.buf b).disk) : Requests s' := by
  constructor
  · rw [hp, hh]
    exact h.serial
  · rw [hp, hh]
    exact h.number
  · rw [hp]
    exact h.distinct
  · intro t b idx n
    rw [hp, hh, hu, hb]
    exact h.pending t b idx n
  · intro n
    rw [hp, hh]
    simp only [hb]
    exact h.done n
  · rw [hh]
    exact h.fresh

/-- A request is served once before it is acknowledged, and acknowledged once. -/
theorem step [DecidableEq B] (h : Requests s) (hL : Locks s) (hO : Layout s) (hF : Flight s)
    (hst : Step s s') : Requests s' := by
  cases hst with
  | alloc t b write idx d hpc ha =>
    obtain ⟨rfl, -⟩ := alloc3Desc_some ha
    exact h.goto hL hpc rfl rfl rfl (fun _ => Or.inl rfl) (by simp [Pc.number])
      (by simp [Pc.waits]) (by simp [Pc.waits])
  | allocSleep t b write d hpc ha =>
    obtain ⟨l, hs, -⟩ := alloc3Desc_none ha
    refine h.goto hL hpc rfl rfl ?_ (fun _ => Or.inl rfl) (by simp [Pc.number])
      (by simp [Pc.waits]) (by simp [Pc.waits])
    simp only [State.used, hs.usedRing, hs.usedSeen, hs.usedIdx]
  | record t b write idx hpc =>
    refine h.goto hL hpc rfl rfl rfl (fun c => ?_) (by simp [Pc.number]) (by simp [Pc.waits])
      (by simp [Pc.waits])
    by_cases hc : c = b
    · exact Or.inr ⟨by rw [hc]; rfl, rfl⟩
    · exact Or.inl (by simp [hc])
  | publish t b write idx hpc => exact h.publish hO hF hpc
  | wait t b write idx n hpc hd =>
    exact h.goto hL hpc rfl rfl rfl (fun _ => Or.inl rfl) (fun _ hn => hn) (fun _ _ _ hw => hw)
      fun _ _ _ hw => Or.inl hw
  | lockWait t b write idx n hpc hl =>
    exact h.goto hL hpc rfl rfl rfl (fun _ => Or.inl rfl) (fun _ hn => hn) (fun _ _ _ hw => hw)
      fun _ _ _ hw => Or.inl hw
  | waitDone t b write idx n hpc hd =>
    refine h.goto hL hpc rfl rfl rfl (fun _ => Or.inl rfl) (fun _ hn => hn) (by simp [Pc.waits])
      fun b' idx' n' hw => Or.inr ?_
    cases hw
    exact hd
  | freeChain t b write idx n i d hpc hf =>
    rw [hO.freeDesc_chain hpc] at hf
    cases hf
    refine h.goto hL hpc rfl rfl rfl (fun _ => Or.inl rfl) ?_ ?_ (by simp [Pc.waits])
    · split_ifs
      · exact fun _ hn => hn
      · exact fun _ hn => hn
    · split_ifs
      · simp [Pc.waits]
      · simp [Pc.waits]
  | intr t b hpc hu hs hb => exact h.intr hL hO hF hu hb
  | take hu => exact h.same rfl rfl rfl fun _ => rfl
  | perform i j b l hm h0 h1 h2 =>
    exact h.same (pc_transfer ..) (hist_transfer ..) rfl fun _ => disk_transfer ..
  | complete i hm => exact h.complete hO hF hm
  | other b blockno data hb =>
    refine h.same rfl rfl rfl fun c => ?_
    by_cases hc : c = b
    · simp [hc]
    · simp [hc]
  | exit | freePanic =>
    exact h.goto hL ‹_› rfl rfl rfl (fun _ => Or.inl rfl) (by simp [Pc.number])
      (by simp [Pc.waits]) (by simp [Pc.waits])
  | _ =>
    exact h.goto hL ‹_› rfl rfl rfl (fun _ => Or.inl rfl) (by exact fun _ hn => hn) (by simp [Pc.waits])
      (by simp [Pc.waits])

end Requests

end Xv6.Virtio
