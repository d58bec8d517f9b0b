import Xv6.Vm.Map

/-! What one round of `mappages` and `uvmunmap`, and `uvmclear`, do to a page table. -/
namespace Xv6.Vm

open Lib Lib.Radix

variable {L : Layout} {m m' : Kmem} {t : Table 2} {v x a pa perm va : ℕ} {ok doFree : Bool}
  {ps : List ℕ} {E : String → Prop}

/-- The table after a round of `mappages` for page `v`, for which `walk` took the pages `ps`. -/
def mapped (t : Table 2) (v x : ℕ) (ps : List ℕ) (ok : Bool) : Table 2 :=
  if ok then (t.grow 0 v ps).set v x else t.grow 0 v ps

@[simp] theorem label_mapped : (mapped t v x ps ok).label = t.label := by
  unfold mapped
  split <;> simp

theorem labels_mapped (h : ps.length ≤ t.missing v) :
    (mapped t v x ps ok).labels = t.labels + ps := by
  unfold mapped
  split
  · rw [Tree.labels_set, Tree.labels_grow t ps h]
  · rw [Tree.labels_grow t ps h]

theorem find_mapped {w : ℕ} (hv : v < maxVa / pgSize) (hw : w < maxVa / pgSize)
    (hfull : t.missing v ≤ ps.length) :
    (mapped t v x ps true).find 0 w = if w = v then x else t.find 0 w := by
  have hmiss : (t.grow 0 v ps).missing v = 0 := by
    rw [Tree.missing_grow_self]
    omega
  rw [mapped, if_pos rfl, find_set_page hv hw hmiss, Tree.find_grow]

theorem find_mapped_false (w : ℕ) : (mapped t v x ps false).find 0 w = t.find 0 w :=
  Tree.find_grow t ps

theorem missing_mapped (hfull : t.missing v ≤ ps.length) (w : ℕ) :
    (mapped t v x ps true).missing w = min (t.missing w) (apart fanout 2 v w) := by
  rw [mapped, if_pos rfl, Tree.missing_set, Tree.missing_grow t ps hfull]

structure PageMapped (m m' : Kmem) (t : Table 2) (v x : ℕ) (ps : List ℕ) (ok : Bool) : Prop where
  took : Took m m' ps ok
  le : ps.length ≤ t.missing v
  full : ok = true ↔ ps.length = t.missing v
  rep : Rep m' (mapped t v x ps ok)
  frame : ∀ b ∉ t.labels + ps, m'.page b = m.page b

/-- One round of `mappages` enters one page, unless a page-table page is missing. -/
theorem mapPage_spec (h : Rep m t) (hap : Apart m t)
    (hx : pa2pte pa ||| perm ||| pteV < 2 ^ 64) :
    Ensures (fun _ => maxVa ≤ a ∨ t.find 0 (a / pgSize) &&& pteV ≠ 0) (mapPage t.label a pa perm)
      (fun ok m' => a < maxVa ∧
        ∃ ps, PageMapped m m' t (a / pgSize) (pa2pte pa ||| perm ||| pteV) ps ok) m := by
  set v := a / pgSize with hv
  unfold mapPage walk
  by_cases hva : maxVa ≤ a
  · rw [if_pos hva]
    exact Or.inl hva
  rw [if_neg hva]
  refine (walkLoop_alloc h hap).bind ?_
  rintro r m₁ ⟨ps, hw⟩
  have hmiss : (t.grow 0 v ps).missing v = t.missing v - ps.length := Tree.missing_grow_self t ps
  have hle : ps.length ≤ t.missing v := hw.le
  cases hl : (t.grow 0 v ps).leaf v with
  | none =>
    have hr : r = none := by rw [hw.result, hl]; rfl
    subst hr
    have hlt : ps.length < t.missing v := by
      have := Tree.leaf_eq_none.mp hl
      omega
    exact ⟨by omega, ps, hw.took, hle, ⟨fun hc => (by cases hc), fun he => by omega⟩, hw.rep, hw.frame⟩
  | some p =>
    have hr : r = some (p, px 0 a) := by rw [hw.result, hl]; rfl
    subst hr
    have hfull : ps.length = t.missing v := by
      have := missing_of_leaf hl
      omega
    have hpte : m₁.pte p (px 0 a) = t.find 0 v := by
      rw [← digit_zero_px, hw.rep.pte_leaf hl, Tree.find_grow]
    have hmem : p ∈ t.labels + ps := by
      rw [← Tree.labels_grow t ps hle]
      exact Tree.leaf_mem_labels hl
    have hnd : (t.grow 0 v ps).labels.Nodup := by
      have hnd := hap.nodup
      rw [hw.took.freelist, ← Multiset.coe_add, ← add_assoc] at hnd
      rw [Tree.labels_grow t ps hle]
      exact Multiset.nodup_of_le (Multiset.le_add_right _ _) hnd
    apply ensures_loadPte
    rw [hpte]
    by_cases hV : t.find 0 v &&& pteV ≠ 0
    · rw [if_pos hV]
      exact Or.inr hV
    · rw [if_neg hV]
      apply ensures_storePte
      refine ⟨by omega, ps, hw.took.setPage _ _, hle, ⟨fun _ => hfull, fun _ => rfl⟩, ?_,
        fun b hb => ?_⟩
      · rw [mapped, if_pos rfl, ← digit_zero_px]
        exact hw.rep.setPte hnd hl hx
      · rw [Kmem.setPte, Kmem.page_setPage_of_ne fun he : b = p => hb (he ▸ hmem)]
        exact hw.frame b hb

def UnmapPanics (L : Layout) (t : Table 2) (a : ℕ) (doFree : Bool) : Prop :=
  maxVa ≤ a ∨ t.find 0 (a / pgSize) &&& pteV = 0 ∨ pteFlags (t.find 0 (a / pgSize)) = pteV ∨
    (doFree = true ∧ ¬L.Ram (pte2pa (t.find 0 (a / pgSize))))

structure PageUnmapped (m m' : Kmem) (t : Table 2) (v : ℕ) (doFree : Bool) : Prop where
  lt : v < maxVa / pgSize
  rep : Rep m' (t.set v 0)
  missing : t.missing v = 0
  freelist : m'.freelist = if doFree then pte2pa (t.find 0 v) :: m.freelist else m.freelist
  frame : ∀ b ∉ t.labels, (doFree = true → b ≠ pte2pa (t.find 0 v)) → m'.page b = m.page b

theorem kfree_spec (pa : ℕ) : Ensures (fun _ => ¬L.Ram pa) (kfree L pa)
    (fun _ m' => L.Ram pa ∧ m'.freelist = pa :: m.freelist ∧
      ∀ b ≠ pa, m'.page b = m.page b) m := by
  by_cases hram : L.Ram pa
  · unfold Ensures
    rw [kfree_eq hram]
    exact ⟨hram, rfl, fun b hb => Kmem.page_setPage_of_ne hb⟩
  · have hc : pa % pgSize ≠ 0 ∨ pa < L.kernelEnd ∨ physTop ≤ pa := by
      by_contra hc
      exact hram ⟨by omega, by omega, by omega⟩
    unfold Ensures kfree
    rw [if_pos hc]
    exact hram

/-- One round of `uvmunmap` clears one entry. -/
theorem unmapPage_spec (h : Rep m t) (hnd : t.labels.Nodup)
    (hfree : doFree = true → t.find 0 (a / pgSize) &&& pteV ≠ 0 →
      pte2pa (t.find 0 (a / pgSize)) ∉ t.labels) :
    Ensures (fun _ => UnmapPanics L t a doFree) (unmapPage L t.label a doFree)
      (fun _ m' => PageUnmapped m m' t (a / pgSize) doFree) m := by
  set v := a / pgSize with hv
  unfold unmapPage
  by_cases hva : maxVa ≤ a
  · unfold walk
    rw [if_pos hva]
    exact Or.inl hva
  refine Ensures.bind_ok (walk_eq h (by omega)) ?_
  rw [← hv]
  cases hl : t.leaf v with
  | none => exact Or.inr (Or.inl (by rw [← hv, find_of_leaf_none hl]; exact Nat.zero_and _))
  | some p =>
    have hpte : m.pte p (px 0 a) = t.find 0 v := by
      rw [← digit_zero_px, h.pte_leaf hl]
    have hmem := Tree.leaf_mem_labels hl
    simp only [Option.map_some]
    apply ensures_loadPte
    rw [hpte]
    by_cases hV : t.find 0 v &&& pteV = 0
    · rw [if_pos hV]
      exact Or.inr (Or.inl hV)
    rw [if_neg hV]
    by_cases hF : pteFlags (t.find 0 v) = pteV
    · rw [if_pos hF]
      exact Or.inr (Or.inr (Or.inl hF))
    rw [if_neg hF]
    have hclear : ∀ m₁ : Kmem, Rep m₁ t → Rep (m₁.setPte p (px 0 a) 0) (t.set v 0) := fun m₁ h₁ => by
      rw [← digit_zero_px]
      exact h₁.setPte hnd hl (by decide)
    cases doFree with
    | false =>
      refine ⟨div_pgSize_lt (by omega), hclear m h, missing_of_leaf hl, rfl, fun b hb _ => ?_⟩
      exact Kmem.page_setPage_of_ne fun he => hb (he ▸ hmem)
    | true =>
      have hnot := hfree rfl hV
      refine ((kfree_spec _).weaken fun _ hram => ?_).bind ?_
      · exact Or.inr (Or.inr (Or.inr ⟨rfl, hram⟩))
      · rintro _ m₁ ⟨-, hlist, hpage⟩
        have h₁ : Rep m₁ t := h.frame fun b hb => hpage b fun he => hnot (he ▸ hb)
        refine ⟨div_pgSize_lt (by omega), hclear m₁ h₁, missing_of_leaf hl, hlist, fun b hb hne => ?_⟩
        rw [← hpage b (hne rfl)]
        exact Kmem.page_setPage_of_ne fun he => hb (he ▸ hmem)

theorem uvmclear_spec (va : ℕ) (h : Rep m t) (hnd : t.labels.Nodup) :
    Ensures (fun _ => maxVa ≤ va ∨ t.leaf (va / pgSize) = none) (uvmclear t.label va)
      (fun _ m' => Rep m' (t.set (va / pgSize) (clearU (t.find 0 (va / pgSize)))) ∧
        t.missing (va / pgSize) = 0 ∧ m'.freelist = m.freelist ∧
        ∀ b ∉ t.labels, m'.page b = m.page b) m := by
  set v := va / pgSize with hv
  unfold uvmclear
  by_cases hva : maxVa ≤ va
  · unfold walk
    rw [if_pos hva]
    exact Or.inl hva
  refine Ensures.bind_ok (walk_eq h (by omega)) ?_
  rw [← hv]
  cases hl : t.leaf v with
  | none => exact Or.inr rfl
  | some p =>
    have hpte : m.pte p (px 0 va) = t.find 0 v := by
      rw [← digit_zero_px, h.pte_leaf hl]
    have hlt : clearU (t.find 0 v) < 2 ^ 64 :=
      lt_of_le_of_lt (Nat.sub_le _ _) (hpte ▸ Kmem.pte_lt)
    have hmem := Tree.leaf_mem_labels hl
    simp only [Option.map_some]
    apply ensures_loadPte
    rw [hpte]
    refine ⟨?_, missing_of_leaf hl, rfl, fun b hb => ?_⟩
    · rw [← digit_zero_px]
      exact h.setPte hnd hl hlt
    · exact Kmem.page_setPage_of_ne fun he => hb (he ▸ hmem)

end Xv6.Vm
