import Xv6.Virtio.Lock

/-! Which descriptors belong to which call, and what is in them. -/
namespace Xv6.Virtio

open Lib

variable {T B D : Type} [DecidableEq T] {s s' : State T B D} {t u : T} {k k' : Pc B}

namespace Pc

def owned : Pc B → List ℕ
  | format0 _ _ idx | format1 _ _ idx | format2 _ _ idx | record _ _ idx | ring _ _ idx
  | publish _ _ idx | wait _ _ idx _ | lockWait _ _ idx _ | clear _ _ idx _ => idx.list
  | freeChain _ _ idx _ i =>
    if i = idx.i0 then idx.list else if i = idx.i1 then [idx.i1, idx.i2] else [idx.i2]
  | _ => []

section

variable {b : B} {write : Bool} {idx : Idx} {n : ℕ}

theorem owned_i0 : (freeChain b write idx n idx.i0).owned = idx.list := by simp [owned]

theorem owned_i1 (h : idx.list.Nodup) :
    (freeChain b write idx n idx.i1).owned = [idx.i1, idx.i2] := by
  obtain ⟨⟨h1, h2⟩, h3⟩ : (idx.i0 ≠ idx.i1 ∧ idx.i0 ≠ idx.i2) ∧ idx.i1 ≠ idx.i2 := by
    simpa [Idx.list] using h
  simp [owned, h1.symm]

theorem owned_i2 (h : idx.list.Nodup) : (freeChain b write idx n idx.i2).owned = [idx.i2] := by
  obtain ⟨⟨h1, h2⟩, h3⟩ : (idx.i0 ≠ idx.i1 ∧ idx.i0 ≠ idx.i2) ∧ idx.i1 ≠ idx.i2 := by
    simpa [Idx.list] using h
  simp [owned, h2.symm, h3.symm]

end

end Pc

def Head (d : Disk B) (sector : BitVec 64) (write : Bool) (idx : Idx) : Prop :=
  d.ops idx.i0 = ⟨if write then 1 else 0, 0, sector⟩ ∧
    d.desc idx.i0 = ⟨.req idx.i0, 16, flagNext, idx.i1⟩

def Body (d : Disk B) (b : B) (write : Bool) (idx : Idx) : Prop :=
  d.desc idx.i1 = ⟨.data b, 1024, (if write then 0 else flagWrite) ||| flagNext, idx.i2⟩

def Tail (d : Disk B) (idx : Idx) : Prop := d.desc idx.i2 = ⟨.status idx.i0, 1, flagWrite, 0⟩

def Pc.Laid (d : Disk B) (sector : B → BitVec 64) : Pc B → Prop
  | format1 b write idx => Head d (sector b) write idx
  | format2 b write idx => Head d (sector b) write idx ∧ Body d b write idx
  | record b write idx | ring b write idx | publish b write idx | wait b write idx _
  | lockWait b write idx _ | clear b write idx _ =>
    Head d (sector b) write idx ∧ Body d b write idx ∧ Tail d idx
  | freeChain b write idx _ i =>
    idx.list.Nodup ∧
      (i = idx.i0 ∧ Head d (sector b) write idx ∧ Body d b write idx ∧ Tail d idx ∨
        i = idx.i1 ∧ Body d b write idx ∧ Tail d idx ∨ i = idx.i2 ∧ Tail d idx)
  | _ => True

theorem Pc.Laid.congr {d e : Disk B} {f g : B → BitVec 64} (h : k.Laid d f)
    (hd : ∀ i ∈ k.owned, e.desc i = d.desc i) (ho : ∀ i ∈ k.owned, e.ops i = d.ops i)
    (hs : ∀ b, k.buf = some b → g b = f b) : k.Laid e g := by
  have hhead : ∀ {idx : Idx} {b : B} {w : Bool}, idx.i0 ∈ k.owned → k.buf = some b →
      Head d (f b) w idx → Head e (g b) w idx := by
    intro idx b w hm hb hh
    rw [Head, hs b hb, ho _ hm, hd _ hm]
    exact hh
  have hbody : ∀ {idx : Idx} {b : B} {w : Bool}, idx.i1 ∈ k.owned → Body d b w idx →
      Body e b w idx := by
    intro idx b w hm hh
    rw [Body, hd _ hm]
    exact hh
  have htail : ∀ {idx : Idx}, idx.i2 ∈ k.owned → Tail d idx → Tail e idx := by
    intro idx hm hh
    rw [Tail, hd _ hm]
    exact hh
  cases k with
  | format1 b write idx => exact hhead (by simp [owned, Idx.list]) rfl h
  | format2 b write idx =>
    exact ⟨hhead (by simp [owned, Idx.list]) rfl h.1, hbody (by simp [owned, Idx.list]) h.2⟩
  | record b write idx | ring b write idx | publish b write idx | wait b write idx n
  | lockWait b write idx n | clear b write idx n =>
    exact ⟨hhead (by simp [owned, Idx.list]) rfl h.1, hbody (by simp [owned, Idx.list]) h.2.1,
      htail (by simp [owned, Idx.list]) h.2.2⟩
  | freeChain b write idx n i =>
    obtain ⟨hn, h⟩ := h
    refine ⟨hn, ?_⟩
    rcases h with ⟨rfl, h⟩ | ⟨rfl, h⟩ | ⟨rfl, h⟩
    · rw [owned_i0] at hhead hbody htail
      exact Or.inl ⟨rfl, hhead (by simp [Idx.list]) rfl h.1, hbody (by simp [Idx.list]) h.2.1,
        htail (by simp [Idx.list]) h.2.2⟩
    · rw [owned_i1 hn] at hbody htail
      exact Or.inr (Or.inl ⟨rfl, hbody (by simp) h.1, htail (by simp) h.2⟩)
    · rw [owned_i2 hn] at htail
      exact Or.inr (Or.inr ⟨rfl, htail (by simp) h⟩)
  | _ => trivial

/-- Where the loop of `free_chain` goes on. -/
def Pc.next (d : Disk B) (b : B) (write : Bool) (idx : Idx) (n i : ℕ) : Pc B :=
  if (d.desc i).flags &&& flagNext = 0 then .exit b n else .freeChain b write idx n (d.desc i).next

theorem Pc.Laid.chain {d : Disk B} {f : B → BitVec 64} {b : B} {write : Bool} {idx : Idx} {n i : ℕ}
    (h : (Pc.freeChain b write idx n i).Laid d f) :
    (Pc.freeChain b write idx n i).owned = i :: (Pc.next d b write idx n i).owned ∧
      (Pc.next d b write idx n i).Laid d f := by
  obtain ⟨hn, ⟨rfl, hh, hb, ht⟩ | ⟨rfl, hb, ht⟩ | ⟨rfl, ht⟩⟩ := h
  · have hnext : Pc.next d b write idx n idx.i0 = .freeChain b write idx n idx.i1 := by
      rw [Pc.next, hh.2]
      exact if_neg (show flagNext &&& flagNext ≠ 0 by decide)
    rw [hnext, owned_i0, owned_i1 hn]
    exact ⟨rfl, hn, Or.inr (Or.inl ⟨rfl, hb, ht⟩)⟩
  · have hnext : Pc.next d b write idx n idx.i1 = .freeChain b write idx n idx.i2 := by
      rw [Pc.next, hb]
      exact if_neg (show ((if write then 0 else flagWrite) ||| flagNext) &&& flagNext ≠ 0 by
        cases write <;> decide)
    rw [hnext, owned_i1 hn, owned_i2 hn]
    exact ⟨rfl, hn, Or.inr (Or.inr ⟨rfl, ht⟩)⟩
  · have hnext : Pc.next d b write idx n idx.i2 = .exit b n := by
      rw [Pc.next, ht]
      exact if_pos (show flagWrite &&& flagNext = 0 by decide)
    rw [hnext, owned_i2 hn]
    exact ⟨rfl, trivial⟩

/-- The descriptors that are not free belong to one call each, and have in them what the call has put
there. -/
structure Layout (s : State T B D) : Prop where
  nodup : ∀ t, (s.pc t).owned.Nodup
  bound : ∀ t, ∀ i ∈ (s.pc t).owned, i < num
  disjoint : ∀ t u, ∀ i ∈ (s.pc t).owned, i ∈ (s.pc u).owned → t = u
  free : ∀ i < num, s.disk.free i = false ↔ ∃ t, i ∈ (s.pc t).owned
  laid : ∀ t, (s.pc t).Laid s.disk fun b => (s.buf b).sector

namespace Layout

theorem move (h : Layout s) (hpc : s.pc t = k') (hp : s'.pc = Function.update s.pc t k)
    (hsub : k.owned.Sublist k'.owned)
    (hfree : ∀ i, s'.disk.free i = (decide (i ∈ k'.owned ∧ i ∉ k.owned) || s.disk.free i))
    (hd : ∀ i ∉ k'.owned, s'.disk.desc i = s.disk.desc i ∨ s.disk.free i = true)
    (ho : ∀ i ∉ k'.owned, s'.disk.ops i = s.disk.ops i)
    (hs : ∀ b, (s'.buf b).sector = (s.buf b).sector)
    (hl : k'.Laid s.disk (fun b => (s.buf b).sector) → k.Laid s'.disk fun b => (s'.buf b).sector) :
    Layout s' := by
  have hself : s'.pc t = k := by rw [hp, Function.update_self]
  have hne : ∀ u, u ≠ t → s'.pc u = s.pc u := fun u hu => by rw [hp, Function.update_of_ne hu]
  have hmem : ∀ u, ∀ i ∈ (s'.pc u).owned, i ∈ (s.pc u).owned := by
    intro u i hi
    by_cases hu : u = t
    · rw [hu, hself] at hi
      rw [hu, hpc]
      exact hsub.subset hi
    · rwa [hne u hu] at hi
  constructor
  · intro u
    by_cases hu : u = t
    · have := h.nodup t
      rw [hpc] at this
      rw [hu, hself]
      exact this.sublist hsub
    · rw [hne u hu]
      exact h.nodup u
  · intro u i hi
    exact h.bound u i (hmem u i hi)
  · intro u v i hu hv
    exact h.disjoint u v i (hmem u i hu) (hmem v i hv)
  · intro i hi
    rw [hfree i]
    constructor
    · intro hf
      obtain ⟨hf₁, hf₂⟩ : ¬(i ∈ k'.owned ∧ i ∉ k.owned) ∧ s.disk.free i = false := by
        simpa only [Bool.or_eq_false_iff, decide_eq_false_iff_not] using hf
      obtain ⟨u, hu⟩ := (h.free i hi).mp hf₂
      refine ⟨u, ?_⟩
      by_cases hut : u = t
      · rw [hut, hpc] at hu
        rw [hut, hself]
        by_contra hn
        exact hf₁ ⟨hu, hn⟩
      · rwa [hne u hut]
    · rintro ⟨u, hu⟩
      have hu' := hmem u i hu
      have hf := (h.free i hi).mpr ⟨u, hu'⟩
      rw [hf, Bool.or_false, decide_eq_false_iff_not]
      rintro ⟨hk', hk⟩
      have hut : u ≠ t := by
        rintro rfl
        rw [hself] at hu
        exact hk hu
      apply hut
      apply h.disjoint u t i hu'
      rw [hpc]
      exact hk'
  · intro u
    by_cases hu : u = t
    · rw [hu, hself]
      apply hl
      rw [← hpc]
      exact h.laid t
    · rw [hne u hu]
      have hdis : ∀ i ∈ (s.pc u).owned, i ∉ k'.owned := by
        intro i hi hi'
        apply hu
        apply h.disjoint u t i hi
        rw [hpc]
        exact hi'
      apply (h.laid u).congr
      · intro i hi
        rcases hd i (hdis i hi) with hd | hf
        · exact hd
        · have := (h.free i (h.bound u i hi)).mpr ⟨u, hi⟩
          rw [hf] at this
          cases this
      · intro i hi
        exact ho i (hdis i hi)
      · intro b _
        exact hs b

theorem goto (h : Layout s) (hpc : s.pc t = k') (hp : s'.pc = Function.update s.pc t k)
    (hown : k.owned = k'.owned) (hfree : s'.disk.free = s.disk.free)
    (hd : s'.disk.desc = s.disk.desc) (ho : s'.disk.ops = s.disk.ops)
    (hs : ∀ b, (s'.buf b).sector = (s.buf b).sector)
    (hl : k'.Laid s.disk (fun b => (s.buf b).sector) → k.Laid s.disk fun b => (s.buf b).sector) :
    Layout s' := by
  refine h.move hpc hp (by rw [hown]) ?_ (fun i _ => Or.inl (by rw [hd])) (fun i _ => by rw [ho]) hs
    fun hk => (hl hk).congr (fun i _ => by rw [hd]) (fun i _ => by rw [ho]) fun b _ => hs b
  intro i
  simp [hown, hfree]

omit [DecidableEq T] in
theorem same (h : Layout s) (hp : s'.pc = s.pc) (hfree : s'.disk.free = s.disk.free)
    (hd : s'.disk.desc = s.disk.desc) (ho : s'.disk.ops = s.disk.ops)
    (hs : ∀ u b, (s.pc u).buf = some b → (s'.buf b).sector = (s.buf b).sector) : Layout s' := by
  constructor
  · rw [hp]
    exact h.nodup
  · rw [hp]
    exact h.bound
  · rw [hp]
    exact h.disjoint
  · rw [hp, hfree]
    exact h.free
  · intro t
    rw [hp]
    exact (h.laid t).congr (fun i _ => by rw [hd]) (fun i _ => by rw [ho]) fun b hb => hs t b hb

theorem alloc (h : Layout s) {b : B} {write : Bool} {idx : Idx} {d : Disk B}
    (hpc : s.pc t = .alloc b write) (ha : alloc3Desc s.disk = .ok (some idx, d)) :
    Layout { s.goto t (.format0 b write idx) with disk := d } := by
  obtain ⟨rfl, hnd, hfree⟩ := alloc3Desc_some ha
  have hnew : ∀ u, ∀ i ∈ (s.pc u).owned, i ∉ idx.list := by
    intro u i hi hm
    have hf := (h.free i (h.bound u i hi)).mpr ⟨u, hi⟩
    rw [(hfree i hm).2] at hf
    cases hf
  have hown : ∀ u, (Function.update s.pc t (.format0 b write idx) u).owned =
      if u = t then idx.list else (s.pc u).owned := by
    intro u
    by_cases hu : u = t
    · simp [hu, Pc.owned]
    · simp [hu]
  constructor
  · intro u
    simp only [State.goto, hown]
    split_ifs
    · exact hnd
    · exact h.nodup u
  · intro u i
    simp only [State.goto, hown]
    split_ifs
    · exact fun hi => (hfree i hi).1
    · exact h.bound u i
  · intro u v i
    simp only [State.goto, hown]
    split_ifs with hu hv hv
    · exact fun _ _ => hu.trans hv.symm
    · exact fun hi hi' => (hnew v i hi' hi).elim
    · exact fun hi hi' => (hnew u i hi hi').elim
    · exact h.disjoint u v i
  · intro i hi
    simp only [State.goto, hown]
    constructor
    · intro hf
      by_cases hm : i ∈ idx.list
      · exact ⟨t, by simpa using hm⟩
      · obtain ⟨u, hu⟩ := (h.free i hi).mp (by simpa [hm] using hf)
        refine ⟨u, ?_⟩
        rw [if_neg]
        · exact hu
        · rintro rfl
          rw [hpc] at hu
          simp [Pc.owned] at hu
    · rintro ⟨u, hu⟩
      split_ifs at hu
      · simp [hu]
      · simp [(h.free i hi).mpr ⟨u, hu⟩]
  · intro u
    by_cases hu : u = t
    · simp [State.goto, hu, Pc.Laid]
    · have hl := h.laid u
      simp only [State.goto, Function.update_of_ne hu]
      exact hl.congr (fun _ _ => rfl) (fun _ _ => rfl) fun _ _ => rfl

omit [DecidableEq T] in
theorem freeDesc_chain (h : Layout s) {b : B} {write : Bool} {idx : Idx} {n i : ℕ}
    (hpc : s.pc t = .freeChain b write idx n i) :
    freeDesc i s.disk = .ok { s.disk with
      desc := Function.update s.disk.desc i ⟨.null, 0, 0, 0⟩
      free := Function.update s.disk.free i true } := by
  have hl := h.laid t
  rw [hpc] at hl
  have hm : i ∈ (s.pc t).owned := by
    rw [hpc, hl.chain.1]
    exact List.mem_cons_self
  have hb := h.bound t i hm
  exact freeDesc_ok hb ((h.free i hb).mpr ⟨t, hm⟩)

theorem freeChain (h : Layout s) {b : B} {write : Bool} {idx : Idx} {n i : ℕ} {d : Disk B}
    (hpc : s.pc t = .freeChain b write idx n i) (hf : freeDesc i s.disk = .ok d) :
    Layout { s.goto t (Pc.next s.disk b write idx n i) with disk := d } := by
  rw [h.freeDesc_chain hpc] at hf
  cases hf
  have hl := h.laid t
  have hnd := h.nodup t
  rw [hpc] at hl hnd
  obtain ⟨hown, hnext⟩ := hl.chain
  rw [hown, List.nodup_cons] at hnd
  have hne : ∀ j ∈ (Pc.next s.disk b write idx n i).owned, j ≠ i := by
    rintro j hj rfl
    exact hnd.1 hj
  refine h.move hpc rfl ?_ ?_ ?_ (fun _ _ => rfl) (fun _ => rfl) fun _ => ?_
  · rw [hown]
    exact List.sublist_cons_self _ _
  · intro j
    rw [hown]
    by_cases hj : j = i
    · simp [hj, hnd.1]
    · simp [hj]
  · intro j hj
    rw [hown] at hj
    exact Or.inl (Function.update_of_ne (List.ne_of_not_mem_cons hj) _ _)
  · exact hnext.congr (fun j hj => Function.update_of_ne (hne j hj) _ _) (fun _ _ => rfl)
      fun _ _ => rfl

/-- A step keeps the descriptors in use apart, one call for each. -/
theorem step [DecidableEq B] (h : Layout s) (hst : Step s s') : Layout s' := by
  cases hst with
  | alloc t b write idx d hpc ha => exact h.alloc hpc ha
  | allocSleep t b write d hpc ha =>
    obtain ⟨l, hs, hfree, hfe⟩ := alloc3Desc_none ha
    refine h.move hpc rfl (by rfl) (fun i => by simp [hfe, Pc.owned]) ?_ (fun i _ => by rw [hs.ops])
      (fun _ => rfl) fun _ => trivial
    intro i _
    by_cases hi : i ∈ l
    · exact Or.inr (hfree i hi)
    · exact Or.inl (hs.desc i hi)
  | allocPanic t b write msg hpc ha => exact (alloc3Desc_ne_error _ _ ha).elim
  | format0 t b write idx hpc =>
    refine h.move hpc rfl (by rfl) (fun i => by simp [Pc.owned, format0]) ?_ ?_ (fun _ => rfl)
      fun _ => ?_
    · intro i hi
      exact Or.inl (Function.update_of_ne (fun he => hi (by simp [he, Pc.owned, Idx.list])) _ _)
    · intro i hi
      exact Function.update_of_ne (fun he => hi (by simp [he, Pc.owned, Idx.list])) _ _
    · exact ⟨by simp [format0, State.goto], by simp [format0]⟩
  | format1 t b write idx hpc =>
    have hnd := h.nodup t
    rw [hpc] at hnd
    have hne : idx.i0 ≠ idx.i1 := by
      rintro he
      simp [Pc.owned, Idx.list, he] at hnd
    refine h.move hpc rfl (by rfl) (fun i => by simp [Pc.owned, format1]) ?_ (fun _ _ => rfl)
      (fun _ => rfl) fun hl => ?_
    · intro i hi
      exact Or.inl (Function.update_of_ne (fun he => hi (by simp [he, Pc.owned, Idx.list])) _ _)
    · exact ⟨⟨hl.1, by simpa [format1, hne] using hl.2⟩, by simp [format1, Body]⟩
  | format2 t b write idx hpc =>
    have hnd := h.nodup t
    rw [hpc] at hnd
    obtain ⟨⟨-, hne⟩, hne'⟩ : (idx.i0 ≠ idx.i1 ∧ idx.i0 ≠ idx.i2) ∧ idx.i1 ≠ idx.i2 := by
      simpa [Pc.owned, Idx.list] using hnd
    refine h.move hpc rfl (by rfl) (fun i => by simp [Pc.owned, format2]) ?_ (fun _ _ => rfl)
      (fun _ => rfl) fun hl => ?_
    · intro i hi
      exact Or.inl (Function.update_of_ne (fun he => hi (by simp [he, Pc.owned, Idx.list])) _ _)
    · exact ⟨⟨hl.1.1, by simpa [format2, hne] using hl.1.2⟩,
        by simpa [format2, Body, hne'] using hl.2, by simp [format2, Tail]⟩
  | record t b write idx hpc =>
    refine h.goto hpc rfl rfl rfl rfl rfl (fun c => ?_) fun hl => hl
    by_cases hc : c = b
    · simp [hc, Buf.sector]
    · simp [hc]
  | clear t b write idx n hpc =>
    have hnd := h.nodup t
    rw [hpc] at hnd
    exact h.goto hpc rfl Pc.owned_i0 rfl rfl rfl (fun _ => rfl) fun hl => ⟨hnd, Or.inl ⟨rfl, hl⟩⟩
  | freeChain t b write idx n i d hpc hf => exact h.freeChain hpc hf
  | freePanic t b write idx n i msg hpc hf =>
    rw [h.freeDesc_chain hpc] at hf
    cases hf
  | intr t b hpc hu hs hb =>
    refine h.same rfl rfl rfl rfl fun _ c _ => ?_
    by_cases hc : c = b
    · simp [hc, Buf.sector]
    · simp [hc]
  | take hu => exact h.same rfl rfl rfl rfl fun _ _ _ => rfl
  | perform i j b l hm h0 h1 h2 =>
    refine h.same (pc_transfer ..) rfl rfl rfl fun _ c _ => ?_
    simp [Buf.sector]
  | complete i hm => exact h.same rfl rfl rfl rfl fun _ _ _ => rfl
  | other b blockno data hb =>
    refine h.same rfl rfl rfl rfl fun u c hc => ?_
    have hne : c ≠ b := by
      rintro rfl
      exact hb u hc
    simp [hne]
  | _ => exact h.goto ‹_› rfl (by rfl) rfl rfl rfl (fun _ => rfl) (by exact fun hl => hl)

end Layout

end Xv6.Virtio
