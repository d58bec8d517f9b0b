import Xv6.Vm.Grow

/-! `freewalk`, and what is built on it: `uvmfree` and `proc_freepagetable` return all pages of an
address space. -/
namespace Xv6.Vm

open Lib Lib.Radix

variable {L : Layout} {m m' : Kmem} {l : ℕ}

def below (t : Table (l + 1)) (is : List (Fin fanout)) : Multiset ℕ :=
  (is.map fun i => (t.child i).elim 0 Tree.labels).sum

theorem labels_eq_below (t : Table (l + 1)) :
    t.labels = t.label ::ₘ below t (List.finRange fanout) := by
  rw [Tree.labels, Fin.sum_univ_def]
  rfl

theorem freeEntries_values {free : ℕ → Kern Unit} {p : ℕ} {is : List ℕ}
    (h : ∀ i ∈ is, m.pte p i &&& pteV = 0) : freeEntries free p is m = .ok ((), m) := by
  induction is with
  | nil => rfl
  | cons i is ih =>
    have hi := h i List.mem_cons_self
    rw [freeEntries, bind_of_ok rfl, if_neg fun hc => hc.1 hi, if_neg fun hc => hc hi]
    exact ih fun j hj => h j (List.mem_cons_of_mem i hj)

theorem node_and_rwx (pa : ℕ) : (pa2pte pa ||| pteV) &&& (pteR ||| pteW ||| pteX) = 0 := by
  rw [pa2pte_or_and (by decide) (by decide)]
  decide

theorem freeEntries_spec {free : ℕ → Kern Unit} {t : Table (l + 1)} {is : List (Fin fanout)}
    (hfree : ∀ m i k, t.child i = some k → Rep m k →
      Ensures (fun _ => False) (free k.label) (fun _ m' =>
        (m'.freelist : Multiset ℕ) = m.freelist + k.labels ∧
          ∀ a ∉ k.labels, m'.page a = m.page a) m)
    (hnone : ∀ i ∈ is, t.child i = none → m.pte t.label i = 0)
    (hsome : ∀ i ∈ is, ∀ k, t.child i = some k →
      m.pte t.label i = pa2pte k.label ||| pteV ∧ PageAddr k.label ∧ Rep m k)
    (hnd : (t.label ::ₘ below t is).Nodup) (his : is.Nodup) :
    Ensures (fun _ => False) (freeEntries free t.label (is.map Fin.val)) (fun _ m' =>
      (m'.freelist : Multiset ℕ) = m.freelist + below t is ∧
        ∀ a ∉ t.label ::ₘ below t is, m'.page a = m.page a) m := by
  induction is generalizing m with
  | nil => exact ⟨(add_zero _).symm, fun _ _ => rfl⟩
  | cons i is ih =>
    have hnone' := fun j hj => hnone j (List.mem_cons_of_mem i hj)
    have hsome' := fun j hj => hsome j (List.mem_cons_of_mem i hj)
    obtain ⟨hnot, his'⟩ := List.nodup_cons.mp his
    rw [List.map_cons, freeEntries]
    apply ensures_loadPte
    cases hk : t.child i with
    | none =>
      have hbelow : below t (i :: is) = below t is := by
        simp [below, hk]
      rw [hbelow] at hnd
      rw [hnone i List.mem_cons_self hk, hbelow, if_neg (by decide), if_neg (by decide)]
      exact ih hnone' hsome' hnd his'
    | some k =>
      have hbelow : below t (i :: is) = k.labels + below t is := by
        simp [below, hk]
      obtain ⟨hpte, ha, hrep⟩ := hsome i List.mem_cons_self k hk
      rw [hbelow, Multiset.nodup_cons, Multiset.nodup_add] at hnd
      obtain ⟨hlabel, -, hnd', hdisj⟩ := hnd
      rw [hpte, if_pos ⟨node_and_pteV _, node_and_rwx _⟩, ha.pte2pa_node, hbelow]
      refine (hfree m i k hk hrep).bind ?_
      rintro _ m₁ ⟨hfl, hpage⟩
      apply ensures_storePte
      have hlabelk : t.label ∉ k.labels := fun hm => hlabel (Multiset.mem_add.mpr (Or.inl hm))
      have hlabel' : t.label ∉ below t is := fun hm => hlabel (Multiset.mem_add.mpr (Or.inr hm))
      have hsame : ∀ a, a ∉ k.labels → a ≠ t.label →
          (m₁.setPte t.label i 0).page a = m.page a := fun a hak hat => by
        rw [Kmem.setPte, Kmem.page_setPage_of_ne hat, hpage a hak]
      have hptej : ∀ j ∈ is, (m₁.setPte t.label i 0).pte t.label j = m.pte t.label j := fun j hj => by
        have hne : (j : ℕ) ≠ i := fun he => hnot (Fin.ext he ▸ hj)
        rw [Kmem.pte_setPte_of_ne hne]
        exact Kmem.pte_congr (hpage _ hlabelk)
      have hrest := ih (m := m₁.setPte t.label i 0)
        (fun j hj hkj => (hptej j hj).trans (hnone' j hj hkj)) (fun j hj k' hkj => by
          have hsub : ∀ a ∈ k'.labels, a ∈ below t is := fun a hak => by
            refine Multiset.mem_of_le (List.single_le_sum (fun _ _ => Multiset.zero_le _) _
              (List.mem_map_of_mem hj)) ?_
            rw [hkj]
            exact hak
          obtain ⟨hp, ha', hr⟩ := hsome' j hj k' hkj
          refine ⟨(hptej j hj).trans hp, ha', hr.frame fun a hak => hsame a ?_ ?_⟩
          · exact fun hm => Multiset.disjoint_left.mp hdisj hm (hsub a hak)
          · exact fun he => hlabel' (he ▸ hsub a hak))
        (Multiset.nodup_cons.mpr ⟨hlabel', hnd'⟩) his'
      refine hrest.mono ?_
      rintro _ m' ⟨hfl', hpage'⟩
      refine ⟨?_, fun a hm => ?_⟩
      · rw [hfl', ← add_assoc, ← hfl]
        rfl
      · rw [Multiset.mem_cons, Multiset.mem_add, not_or, not_or] at hm
        obtain ⟨hat, hak, hab⟩ := hm
        have hcons : a ∉ t.label ::ₘ below t is := by
          rw [Multiset.mem_cons, not_or]
          exact ⟨hat, hab⟩
        rw [hpage' a hcons, hsame a hak hat]

/-- `freewalk` frees all page-table pages, by induction on the levels. -/
theorem freewalk_spec {t : Table l} (h : Rep m t) (hnd : t.labels.Nodup)
    (hram : ∀ a ∈ t.labels, L.Ram a) (hleaf : ∀ v, t.find 0 v &&& pteV = 0) :
    Ensures (fun _ => False) (freewalk L (l + 1) t.label) (fun _ m' =>
      (m'.freelist : Multiset ℕ) = m.freelist + t.labels ∧
        ∀ a ∉ t.labels, m'.page a = m.page a) m := by
  induction l generalizing m with
  | zero =>
    have hpte : ∀ i ∈ (List.finRange fanout).map Fin.val, m.pte t.label i &&& pteV = 0 := by
      intro i hi
      obtain ⟨j, -, rfl⟩ := List.mem_map.mp hi
      have := hleaf j
      rwa [Tree.find_val j, ← h j] at this
    have hlabel : t.labels = {t.label} := rfl
    rw [freewalk, ← List.map_coe_finRange_eq_range]
    refine Ensures.bind_ok (freeEntries_values hpte) ?_
    refine ((kfree_spec _).weaken fun _ hn => hn (hram _ (Tree.label_mem_labels t))).mono ?_
    rintro _ m' ⟨-, hfl, hpage⟩
    refine ⟨?_, fun a ha => hpage a fun he => ha (he ▸ Tree.label_mem_labels t)⟩
    rw [hfl, hlabel, ← Multiset.cons_coe, add_comm, Multiset.singleton_add]
  | succ l ih =>
    have hsub : ∀ i k, t.child i = some k → k.labels ≤ t.labels := fun i k hk =>
      (Multiset.le_cons_self _ _).trans (Tree.labels_child_le hk)
    have hbelow := labels_eq_below t
    have hfree : ∀ m i k, t.child i = some k → Rep m k →
        Ensures (fun _ => False) (freewalk L (l + 1) k.label) (fun _ m' =>
          (m'.freelist : Multiset ℕ) = m.freelist + k.labels ∧
            ∀ a ∉ k.labels, m'.page a = m.page a) m := fun m i k hk hrep => by
      apply ih hrep
      · exact Multiset.nodup_of_le (hsub i k hk) hnd
      · exact fun a ha => hram a (Multiset.mem_of_le (hsub i k hk) ha)
      · intro v
        obtain ⟨w, hw⟩ := Tree.exists_find_child (d := 0) hk v
        rw [← hw]
        exact hleaf w
    rw [freewalk, ← List.map_coe_finRange_eq_range]
    have hloop := freeEntries_spec hfree (fun i _ => h.none) (fun i _ k => h.some) (hbelow ▸ hnd)
      (List.nodup_finRange _)
    refine hloop.bind ?_
    rintro _ m₁ ⟨hfl, hpage⟩
    refine ((kfree_spec _).weaken fun _ hn => hn (hram _ (Tree.label_mem_labels t))).mono ?_
    rintro _ m' ⟨-, hfl', hpage'⟩
    refine ⟨?_, fun a ha => ?_⟩
    · rw [hfl', ← Multiset.cons_coe, hfl, hbelow, Multiset.add_cons]
    · rw [hpage' a fun he => ha (he ▸ Tree.label_mem_labels t), hpage a (hbelow ▸ ha)]

variable {t : Table 2} {img : Image} {A : Multiset ℕ} {n sz tf v w : ℕ}

theorem find_eq_zero (h : ∀ v < maxVa / pgSize, t.find 0 v = 0)
    (hu : ∀ v, maxVa / pgSize ≤ v → v < 2 * (maxVa / pgSize) → t.missing v = 2) (v : ℕ) :
    t.find 0 v = 0 := by
  have hpow : fanout ^ (2 + 1) = 2 ^ 27 := by
    rw [fanout_eq]
    norm_num
  have hmod : v % 2 ^ 27 % fanout ^ (2 + 1) = v % fanout ^ (2 + 1) := by
    rw [hpow, Nat.mod_mod]
  rw [← Tree.find_congr hmod]
  rw [maxVa_div] at *
  by_cases hv : v % 2 ^ 27 < 2 ^ 26
  · exact h _ hv
  · have hmiss := hu (v % 2 ^ 27) (by omega) (by omega)
    exact Tree.find_of_missing (by rw [hmiss]; decide)

/-- All pages of the address space are free. -/
theorem uvmfree_spec (sz : ℕ) (h : Space L m t (Multiset.range (numPages sz)) A)
    (hrest : ∀ v, numPages sz ≤ v → v < maxVa / pgSize → t.find 0 v = 0)
    (hu : ∀ v, maxVa / pgSize ≤ v → v < 2 * (maxVa / pgSize) → t.missing v = 2) :
    Ensures (fun _ => False) (uvmfree L t.label sz) (fun _ m' =>
      (m'.freelist : Multiset ℕ) = A ∧ SameOutside m m' A) m := by
  have hwalk : ∀ (m : Kmem) (t : Table 2), Space L m t 0 A → (∀ v, t.find 0 v = 0) →
      Ensures (fun _ => False) (freewalk L 3 t.label) (fun _ m' =>
        (m'.freelist : Multiset ℕ) = A ∧ SameOutside m m' A) m := fun m t hs hfind => by
    refine (freewalk_spec hs.rep hs.labels_nodup (fun a ha => hs.ram a (hs.mem_of_label ha))
      fun v => by rw [hfind, Nat.zero_and]).mono ?_
    rintro _ m' ⟨hfl, hpage⟩
    refine ⟨?_, fun a ha => hpage a fun hm => ha (hs.mem_of_label hm)⟩
    rw [hfl, ← hs.total, data_zero, add_zero]
  unfold uvmfree
  by_cases hsz : 0 < sz
  · have hle : numPages sz ≤ 32768 := by
      have := h.card_user_le
      rwa [Multiset.card_range] at this
    have hround : pgRoundUp sz / pgSize = numPages sz := by
      rw [pgRoundUp_eq, Nat.mul_div_cancel _ (by decide)]
      unfold numPages at hle
      rw [pgSize_eq] at *
      omega
    have hspace : Space L m t ((List.range' 0 (numPages sz) : List ℕ) + 0) A := by
      have := range_add_range' (Nat.zero_le (numPages sz))
      rw [Nat.sub_zero, Multiset.range_zero] at this
      rw [this]
      exact h
    have hunmap := hspace.uvmunmap_free (by rw [maxVa_div]; omega)
    rw [Nat.zero_mul] at hunmap
    rw [if_pos hsz, hround]
    refine hunmap.bind ?_
    rintro _ m₁ ⟨t₁, hs, hout, -, hc⟩
    rw [← hc.label]
    refine (hwalk m₁ t₁ hs (find_eq_zero (fun v hv => ?_) fun v hv hv' => ?_)).mono ?_
    · rw [hc.find v hv]
      split_ifs with hin
      · rfl
      · exact hrest v (by omega) hv
    · rw [hc.missing, hu v hv hv']
    · rintro _ m' ⟨hfl, hout'⟩
      exact ⟨hfl, hout.trans hout'⟩
  · obtain rfl : sz = 0 := by omega
    rw [if_neg hsz]
    exact hwalk m t h (find_eq_zero (fun v hv => hrest v (Nat.zero_le v) hv) hu)

theorem trampolineVa_eq : trampolineVa = trampolinePage * pgSize := by decide

theorem trapframeVa_eq : trapframeVa = trapframePage * pgSize := by decide

theorem procFreepagetable_spec (h : Uvm L m t (numPages sz) img tf A) :
    Ensures (fun _ => False) (procFreepagetable L t.label sz) (fun _ m' =>
      (m'.freelist : Multiset ℕ) = A ∧ SameOutside m m' A) m := by
  have hle := h.le
  have hmax := maxVa_div
  have htf := trapframePage_eq
  have htr := trampolinePage_eq
  have hleafR : Leaf (t.find 0 trampolinePage) := by
    rw [h.trampoline]
    exact leaf_entry (by decide) (by decide)
  rw [procFreepagetable, trampolineVa_eq, trapframeVa_eq]
  refine (h.space.uvmunmap_keep (by omega) (by rw [Multiset.mem_range]; omega) hleafR).bind ?_
  rintro _ m₁ ⟨t₁, hs₁, hout₁, -, hc₁⟩
  have hleafF : Leaf (t₁.find 0 trapframePage) := by
    rw [hc₁.find _ (by omega), if_neg (by omega), h.trapframe]
    exact leaf_entry (by decide) (by decide)
  rw [← hc₁.label]
  refine (hs₁.uvmunmap_keep (by omega) (by rw [Multiset.mem_range]; omega) hleafF).bind ?_
  rintro _ m₂ ⟨t₂, hs₂, hout₂, -, hc₂⟩
  rw [← hc₂.label]
  refine (uvmfree_spec sz hs₂ (fun v hv hv' => ?_) fun v hv hv' => ?_).mono ?_
  · rw [hc₂.find v hv', hc₁.find v hv']
    split_ifs with hF hR
    · rfl
    · rfl
    · exact h.rest v hv (by omega)
  · rw [hc₂.missing, hc₁.missing, h.upper v hv hv']
  · rintro _ m' ⟨hfl, hout₃⟩
    exact ⟨hfl, (hout₁.trans hout₂).trans hout₃⟩

end Xv6.Vm
