import Xv6.Vm.Kmem
import Xv6.Vm.Pte

/-! Page tables in memory: `walk` of `kernel/vm.c` on the pages that represent a radix tree. -/
namespace Xv6.Vm

open Lib Lib.Radix

/-- The loop of `walk`; a pointer to an entry is the page and the index. -/
def walkLoop : ℕ → ℕ → ℕ → Bool → Kern (Option (ℕ × ℕ))
  | 0, pagetable, va, _ => return some (pagetable, px 0 va)
  | level + 1, pagetable, va, alloc => do
    let pte ← loadPte pagetable (px (level + 1) va)
    if pte &&& pteV ≠ 0 then walkLoop level (pte2pa pte) va alloc
    else if alloc = false then return none
    else
      match ← kalloc with
      | none => return none
      | some page =>
        memset page 0
        storePte pagetable (px (level + 1) va) (pa2pte page ||| pteV)
        walkLoop level page va alloc

def walk (pagetable va : ℕ) (alloc : Bool) : Kern (Option (ℕ × ℕ)) :=
  if maxVa ≤ va then throw "walk" else walkLoop 2 pagetable va alloc

/-- A tree of page-table pages: nodes are labelled with their addresses, and leaves have entries. -/
abbrev Table : ℕ → Type := Tree fanout ℕ

structure PageAddr (pa : ℕ) : Prop where
  aligned : pa % pgSize = 0
  lt : pa < 2 ^ 56

theorem Layout.Ram.pageAddr {L : Layout} {pa : ℕ} (h : L.Ram pa) : PageAddr pa :=
  ⟨h.aligned, h.lt.trans (by decide)⟩

def Rep (m : Kmem) : {l : ℕ} → Table l → Prop
  | 0, t => ∀ i : Fin fanout, m.pte t.label i = t.value i
  | _ + 1, t => ∀ i : Fin fanout,
    match t.child i with
    | none => m.pte t.label i = 0
    | some k => m.pte t.label i = pa2pte k.label ||| pteV ∧ PageAddr k.label ∧ Rep m k

variable {m m' : Kmem} {l : ℕ} {va v x : ℕ} {E : String → Prop}

theorem Rep.none {t : Table (l + 1)} {i : Fin fanout} (h : Rep m t) (hi : t.child i = none) :
    m.pte t.label i = 0 := by
  have := h i
  rwa [hi] at this

theorem Rep.some {t : Table (l + 1)} {i : Fin fanout} {k : Table l} (h : Rep m t)
    (hi : t.child i = some k) :
    m.pte t.label i = pa2pte k.label ||| pteV ∧ PageAddr k.label ∧ Rep m k := by
  have := h i
  rwa [hi] at this

theorem Rep.frame : {l : ℕ} → {t : Table l} → Rep m t →
    (∀ a ∈ t.labels, m'.page a = m.page a) → Rep m' t
  | 0, t, h, hf => fun i => (Kmem.pte_congr (hf _ (Tree.label_mem_labels t))).trans (h i)
  | l + 1, t, h, hf => fun i => by
    have hpte : m'.pte t.label i = m.pte t.label i :=
      Kmem.pte_congr (hf _ (Tree.label_mem_labels t))
    cases hi : t.child i with
    | none => exact hpte.trans (h.none hi)
    | some k =>
      obtain ⟨hp, ha, hk⟩ := h.some hi
      refine ⟨hpte.trans hp, ha, hk.frame fun a hm => hf a ?_⟩
      exact Multiset.mem_of_le (Tree.labels_child_le hi) (Multiset.mem_cons_of_mem hm)

theorem Rep.setChild {t : Table (l + 1)} {i : Fin fanout} {k : Table l} (h : Rep m t) (hk : Rep m' k)
    (ha : PageAddr k.label) (hi : m'.pte t.label i = pa2pte k.label ||| pteV)
    (hj : ∀ j ≠ i, m'.pte t.label j = m.pte t.label j)
    (hf : ∀ j ≠ i, ∀ k', t.child j = Option.some k' → ∀ a ∈ k'.labels, m'.page a = m.page a) :
    Rep m' (t.setChild i k) := by
  intro j
  by_cases hji : j = i
  · subst hji
    rw [Tree.child_setChild_self]
    exact ⟨hi, ha, hk⟩
  · rw [Tree.child_setChild_of_ne hji, Tree.label_setChild]
    have hpte := hj j hji
    cases hc : t.child j with
    | none => exact (hj j hji).trans (h.none hc)
    | some k' =>
      obtain ⟨hp, ha', hk'⟩ := h.some hc
      exact ⟨(hj j hji).trans hp, ha', hk'.frame (hf j hji k' hc)⟩

theorem Rep.empty {p : ℕ} (h : ∀ i : Fin fanout, m.pte p i = 0) : Rep m (Tree.empty 0 l p : Table l) := by
  cases l with
  | zero => exact h
  | succ l => exact h

theorem node_and_pteV (pa : ℕ) : (pa2pte pa ||| pteV) &&& pteV ≠ 0 := by
  rw [pa2pte_or_and (by decide) (by decide)]
  decide

theorem PageAddr.pte2pa_node {pa : ℕ} (h : PageAddr pa) : pte2pa (pa2pte pa ||| pteV) = pa :=
  pte2pa_or (by decide) (h.lt.trans (by decide)) h.aligned

theorem digit_px (level va : ℕ) : ((digit fanout level (va / pgSize) : Fin fanout) : ℕ) = px level va :=
  px_eq_digit.symm

theorem walkLoop_eq : {l : ℕ} → {t : Table l} → Rep m t →
    walkLoop l t.label va false m =
      .ok ((t.leaf (va / pgSize)).map fun p => (p, px 0 va), m)
  | 0, _, _ => rfl
  | l + 1, t, h => by
    show (if m.pte t.label (px (l + 1) va) &&& pteV ≠ 0 then
      walkLoop l (pte2pa (m.pte t.label (px (l + 1) va))) va false else _) m = _
    rw [← digit_px, Tree.leaf]
    cases hi : t.child (digit fanout (l + 1) (va / pgSize)) with
    | none =>
      rw [h.none hi, if_neg (by decide)]
      rfl
    | some k =>
      obtain ⟨hp, ha, hk⟩ := h.some hi
      rw [hp, if_pos (node_and_pteV _), ha.pte2pa_node]
      exact walkLoop_eq hk

theorem walk_eq {t : Table 2} (h : Rep m t) (hva : va < maxVa) :
    walk t.label va false m = .ok ((t.leaf (va / pgSize)).map fun p => (p, px 0 va), m) := by
  rw [walk, if_neg (by omega)]
  exact walkLoop_eq h

theorem ensures_loadPte {α : Type} {f : ℕ → Kern α} {Q : α → Kmem → Prop} {p i : ℕ}
    (h : Ensures E (f (m.pte p i)) Q m) : Ensures E (loadPte p i >>= f) Q m := by
  have hload : Ensures E (loadPte p i) (fun a s => a = m.pte p i ∧ s = m) m := by
    unfold Ensures loadPte
    exact ⟨rfl, rfl⟩
  refine hload.bind ?_
  intro a s hs
  rw [hs.1, hs.2]
  exact h

theorem ensures_storePte {α : Type} {f : Unit → Kern α} {Q : α → Kmem → Prop} {p i x : ℕ}
    (h : Ensures E (f ()) Q (m.setPte p i x)) : Ensures E (storePte p i x >>= f) Q m :=
  Ensures.bind (Q := fun _ s => s = m.setPte p i x) rfl fun _ _ hs => hs ▸ h

theorem ensures_memset {α : Type} {f : Unit → Kern α} {Q : α → Kmem → Prop} {p : ℕ} {c : UInt8}
    (h : Ensures E (f ()) Q (m.setPage p fun _ => c)) : Ensures E (memset p c >>= f) Q m :=
  Ensures.bind (Q := fun _ s => s = m.setPage p fun _ => c) rfl fun _ _ hs => hs ▸ h

/-- What `walk` with `alloc` has done when it returns `r`: it has taken pages for the nodes on the
path, and it returns 0 if they were not enough. -/
structure Walked (m m' : Kmem) (t : Table l) (va : ℕ) (r : Option (ℕ × ℕ)) (ps : List ℕ) : Prop where
  took : Took m m' ps r.isSome
  le : ps.length ≤ t.missing (va / pgSize)
  rep : Rep m' (t.grow 0 (va / pgSize) ps)
  result : r = ((t.grow 0 (va / pgSize) ps).leaf (va / pgSize)).map fun p => (p, px 0 va)
  frame : ∀ a ∉ t.labels + ps, m'.page a = m.page a

/-- The pages of a table and the free pages. -/
structure Apart (m : Kmem) (t : Table l) : Prop where
  nodup : (t.labels + m.freelist).Nodup
  free : ∀ a ∈ m.freelist, PageAddr a

section Apart

variable {t : Table (l + 1)} {i j : Fin fanout} {k k' : Table l} {a : ℕ}

theorem Apart.label_notMem (h : Apart m t) (hi : t.child i = some k) : t.label ∉ k.labels := by
  have hnd := Multiset.nodup_of_le (Multiset.le_add_right _ _) h.nodup
  exact (Multiset.nodup_cons.mp (Multiset.nodup_of_le (Tree.labels_child_le hi) hnd)).1

theorem Apart.notMem_free {t : Table l} (h : Apart m t) (ha : a ∈ t.labels) : a ∉ m.freelist :=
  Multiset.disjoint_left.mp (Multiset.nodup_add.mp h.nodup).2.2 ha

theorem Apart.child (h : Apart m t) (hi : t.child i = some k) : Apart m k := by
  refine ⟨Multiset.nodup_of_le ?_ h.nodup, h.free⟩
  exact add_le_add_left ((Multiset.le_cons_self _ _).trans (Tree.labels_child_le hi)) _

theorem Apart.other (h : Apart m t) (hij : j ≠ i) (hi : t.child i = some k)
    (hj : t.child j = some k') (ha : a ∈ k'.labels) : a ∉ k.labels := by
  have hnd := Multiset.nodup_of_le (Multiset.le_add_right _ _) h.nodup
  have hpair := Multiset.nodup_of_le (Tree.labels_children_le hij hj hi) hnd
  exact Multiset.disjoint_left.mp (Multiset.nodup_add.mp hpair).2.2 ha

theorem mem_labels_of_child (hj : t.child j = some k') (ha : a ∈ k'.labels) : a ∈ t.labels :=
  Multiset.mem_of_le (Tree.labels_child_le hj) (Multiset.mem_cons_of_mem ha)

end Apart

theorem walkLoop_alloc : {l : ℕ} → {m : Kmem} → {t : Table l} → Rep m t → Apart m t →
    Ensures E (walkLoop l t.label va true) (fun r m' => ∃ ps, Walked m m' t va r ps) m
  | 0, m, t, h, _ => ⟨[], Took.refl m, le_rfl, h, rfl, fun _ _ => rfl⟩
  | l + 1, m, t, h, hap => by
    set v := va / pgSize with hv
    set i := digit fanout (l + 1) v with hidef
    have hpx : px (l + 1) va = i := (digit_px (l + 1) va).symm
    rw [walkLoop, hpx]
    apply ensures_loadPte
    cases hi : t.child i with
    | some k =>
      obtain ⟨hp, ha, hk⟩ := h.some hi
      rw [hp, if_pos (node_and_pteV _), ha.pte2pa_node]
      apply (walkLoop_alloc hk (hap.child hi)).mono
      rintro r m' ⟨ps, hw⟩
      have hps : ∀ a, a ∈ ps → a ∈ m.freelist := fun a hm => by
        rw [hw.took.freelist]
        exact List.mem_append_left _ hm
      have hgrow : t.grow 0 v ps = t.setChild i (k.grow 0 v ps) := Tree.grow_some hi
      have hmiss : t.missing v = k.missing v := by rw [Tree.missing, hi]
      have hsame : ∀ a ∈ t.labels, a ∉ k.labels → m'.page a = m.page a := fun a hm hn => by
        refine hw.frame a fun hm' => ?_
        rcases Multiset.mem_add.mp hm' with h' | h'
        · exact hn h'
        · exact hap.notMem_free hm (hps a h')
      have hnode := hsame _ (Tree.label_mem_labels t) (hap.label_notMem hi)
      refine ⟨ps, hw.took, hmiss ▸ hw.le, ?_, ?_, fun a hn => hw.frame a fun hm => hn ?_⟩
      · rw [hgrow]
        refine h.setChild hw.rep (by rwa [Tree.label_grow]) ?_ (fun j _ => Kmem.pte_congr hnode) ?_
        · rw [Tree.label_grow, Kmem.pte_congr hnode, hp]
        · intro j hj k' hk' a hm
          exact hsame a (mem_labels_of_child hk' hm) (hap.other hj hi hk' hm)
      · rw [hgrow, Tree.leaf, Tree.child_setChild_self]
        exact hw.result
      · rcases Multiset.mem_add.mp hm with h' | h'
        · exact Multiset.mem_add.mpr (Or.inl (mem_labels_of_child hi h'))
        · exact Multiset.mem_add.mpr (Or.inr h')
    | none =>
      have hpte := h.none hi
      rw [hpte, if_neg (by decide), if_neg (by decide)]
      have hmiss : t.missing v = l + 1 := by rw [Tree.missing, hi]
      refine Ensures.bind kalloc_spec ?_
      rintro (_ | p) m₁ ⟨htook, hpage⟩
      · refine ⟨[], htook, Nat.zero_le _, ?_, ?_, fun a _ => hpage a (by simp)⟩
        · rw [Tree.grow_nil hi]
          exact h.frame fun a _ => hpage a (by simp)
        · rw [Tree.grow_nil hi, Tree.leaf, hi]
          rfl
      · -- the new node is in memory, and the tree below it grows
        have hfree : m.freelist = p :: m₁.freelist := htook.freelist
        have hmem : p ∈ m.freelist := by rw [hfree]; exact List.mem_cons_self
        have hpaddr := hap.free p hmem
        have hpl : p ∉ t.labels := fun hm => hap.notMem_free hm hmem
        have hne : p ≠ t.label := fun he => hpl (he ▸ Tree.label_mem_labels t)
        apply ensures_memset
        apply ensures_storePte
        set m₂ := (m₁.setPage p fun _ => 0).setPte t.label i (pa2pte p ||| pteV) with hm₂
        have hlt : pa2pte p ||| pteV < 2 ^ 64 :=
          pa2pte_or_lt (by decide) (hpaddr.lt.trans (by decide))
        have hpageof : ∀ a, a ≠ p → a ≠ t.label → m₂.page a = m.page a := fun a ha ha' => by
          rw [hm₂, Kmem.setPte, Kmem.page_setPage_of_ne ha', Kmem.page_setPage_of_ne ha]
          exact hpage a fun he => ha (Option.some.inj he).symm
        have hzero : ∀ j : Fin fanout, m₂.pte p j = 0 := fun j => by
          have hclear : (m₁.setPage p fun _ => 0).pte p j = 0 := Kmem.pte_zero
          exact (Kmem.pte_congr (Kmem.page_setPage_of_ne hne)).trans hclear
        have hnew : Rep m₂ (Tree.empty 0 l p : Table l) := Rep.empty hzero
        have hap₂ : Apart m₂ (Tree.empty 0 l p : Table l) := by
          refine ⟨?_, fun a hm => hap.free a (by rw [hfree]; exact List.mem_cons_of_mem _ hm)⟩
          rw [Tree.labels_empty]
          have hnd := (Multiset.nodup_add.mp hap.nodup).2.1
          rw [hfree, ← Multiset.cons_coe, ← Multiset.singleton_add] at hnd
          exact hnd
        have hrec := walkLoop_alloc hnew hap₂
        rw [Tree.label_empty] at hrec
        apply hrec.mono
        rintro r m' ⟨qs, hw⟩
        have hqs : ∀ a, a ∈ qs → a ∈ m₁.freelist := fun a hm => by
          have := hw.took.freelist
          exact this ▸ List.mem_append_left _ hm
        have hsame : ∀ a ∈ t.labels, m'.page a = m₂.page a := fun a hm => by
          refine hw.frame a fun hm' => ?_
          rw [Tree.labels_empty] at hm'
          rcases Multiset.mem_add.mp hm' with h' | h'
          · exact hpl (Multiset.mem_singleton.mp h' ▸ hm)
          · exact hap.notMem_free hm (by rw [hfree]; exact List.mem_cons_of_mem _ (hqs a h'))
        have hnode := hsame _ (Tree.label_mem_labels t)
        have hgrow : t.grow 0 v (p :: qs) = t.setChild i ((Tree.empty 0 l p).grow 0 v qs) :=
          Tree.grow_cons hi
        refine ⟨p :: qs, ?_, ?_, ?_, ?_, fun a hn => ?_⟩
        · have htook₂ : Took m m₂ [p] true := (htook.setPage _ _).setPage _ _
          exact htook₂.trans hw.took
        · have := hw.le
          rw [Tree.missing_empty] at this
          rw [hmiss, List.length_cons]
          omega
        · rw [hgrow]
          refine h.setChild hw.rep (by rwa [Tree.label_grow, Tree.label_empty]) ?_ ?_ ?_
          · rw [Tree.label_grow, Tree.label_empty, Kmem.pte_congr hnode]
            exact Kmem.pte_setPte_self (i.isLt.trans_le fanout_eq.le) hlt
          · intro j hj
            rw [Kmem.pte_congr hnode, hm₂, Kmem.pte_setPte_of_ne fun he => hj (Fin.ext he)]
            apply Kmem.pte_congr
            rw [Kmem.page_setPage_of_ne hne.symm]
            exact hpage _ fun he => hne (Option.some.inj he)
          · intro j hj k' hk' a hm
            have hmt := mem_labels_of_child hk' hm
            rw [hsame a hmt]
            refine hpageof a (fun he => hpl (he ▸ hmt)) fun he => ?_
            exact hap.label_notMem hk' (he ▸ hm)
        · rw [hgrow, Tree.leaf, Tree.child_setChild_self]
          exact hw.result
        · rw [Multiset.mem_add, not_or] at hn
          have hap' : a ≠ p := fun he => hn.2 (by rw [he]; exact List.mem_cons_self)
          rw [hw.frame a ?_, hpageof a hap' fun he => hn.1 (he ▸ Tree.label_mem_labels t)]
          rw [Tree.labels_empty, Multiset.mem_add, not_or]
          exact ⟨fun he => hap' (Multiset.mem_singleton.mp he),
            fun hm => hn.2 (List.mem_cons_of_mem _ hm)⟩

end Xv6.Vm
