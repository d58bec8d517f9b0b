import Xv6.Vm.Walk

/-! Entries of page tables: `walkaddr`, `mappages`, `uvmunmap` and `uvmclear` of `kernel/vm.c`, and
what they do to one page. -/
namespace Xv6.Vm

open Lib Lib.Radix

def walkaddr (pagetable va : ℕ) : Kern ℕ := do
  if maxVa ≤ va then return 0
  else
    match ← walk pagetable va false with
    | none => return 0
    | some (p, i) =>
      let pte ← loadPte p i
      if pte &&& pteV = 0 then return 0
      else if pte &&& pteU = 0 then return 0
      else return pte2pa pte

/-- A round of the loop of `mappages`; `false` is `return -1`. -/
def mapPage (pagetable a pa perm : ℕ) : Kern Bool := do
  match ← walk pagetable a true with
  | none => return false
  | some (p, i) =>
    let pte ← loadPte p i
    if pte &&& pteV ≠ 0 then throw "mappages: remap"
    else
      storePte p i (pa2pte pa ||| perm ||| pteV)
      return true

def mappagesLoop (pagetable last perm : ℕ) : ℕ → ℕ → ℕ → Kern Bool
  | 0, _, _ => return true
  | fuel + 1, a, pa => do
    if ← mapPage pagetable a pa perm then
      if a = last then return true
      else mappagesLoop pagetable last perm fuel ((a + pgSize) % 2 ^ 64) ((pa + pgSize) % 2 ^ 64)
    else return false

/-- `mappages`; `false` is -1. The last round is the one with `a == last`. -/
def mappages (pagetable va size pa perm : ℕ) : Kern Bool :=
  if va % pgSize ≠ 0 then throw "mappages: va not aligned"
  else if size % pgSize ≠ 0 then throw "mappages: size not aligned"
  else if size = 0 then throw "mappages: size"
  else
    mappagesLoop pagetable ((va + (size - pgSize)) % 2 ^ 64) perm (size / pgSize) va pa

def unmapPage (L : Layout) (pagetable a : ℕ) (doFree : Bool) : Kern Unit := do
  match ← walk pagetable a false with
  | none => throw "uvmunmap: walk"
  | some (p, i) =>
    let pte ← loadPte p i
    if pte &&& pteV = 0 then throw "uvmunmap: not mapped"
    else if pteFlags pte = pteV then throw "uvmunmap: not a leaf"
    else
      if doFree then kfree L (pte2pa pte)
      storePte p i 0

def uvmunmapLoop (L : Layout) (pagetable last : ℕ) (doFree : Bool) : ℕ → ℕ → Kern Unit
  | 0, _ => return ()
  | fuel + 1, a =>
    if a < last then do
      unmapPage L pagetable a doFree
      uvmunmapLoop L pagetable last doFree fuel ((a + pgSize) % 2 ^ 64)
    else return ()

def uvmunmap (L : Layout) (pagetable va npages : ℕ) (doFree : Bool) : Kern Unit :=
  if va % pgSize ≠ 0 then throw "uvmunmap: not aligned"
  else uvmunmapLoop L pagetable ((va + npages * pgSize) % 2 ^ 64) doFree npages va

def uvmcreate : Kern (Option ℕ) := do
  match ← kalloc with
  | none => return none
  | some pagetable =>
    memset pagetable 0
    return some pagetable

def clearU (pte : ℕ) : ℕ := pte - (pte &&& pteU)

def uvmclear (pagetable va : ℕ) : Kern Unit := do
  match ← walk pagetable va false with
  | none => throw "uvmclear"
  | some (p, i) =>
    let pte ← loadPte p i
    storePte p i (clearU pte)

variable {m m' : Kmem} {l : ℕ} {t : Table 2} {va v x a pa perm : ℕ} {E : String → Prop}

theorem Rep.pte_leaf : {l : ℕ} → {t : Table l} → {p : ℕ} → Rep m t → t.leaf v = Option.some p →
    m.pte p (digit fanout 0 v) = t.find 0 v
  | 0, t, p, h, hp => by
    rw [Tree.leaf, Option.some.injEq] at hp
    rw [← hp, h, Tree.find]
  | l + 1, t, p, h, hp => by
    rw [Tree.leaf] at hp
    rw [Tree.find]
    cases hi : t.child (digit fanout (l + 1) v) with
    | none => simp [hi] at hp
    | some k =>
      rw [hi] at hp
      exact (h.some hi).2.2.pte_leaf hp

theorem Rep.setPte : {l : ℕ} → {t : Table l} → {p : ℕ} → Rep m t → t.labels.Nodup →
    t.leaf v = Option.some p → x < 2 ^ 64 → Rep (m.setPte p (digit fanout 0 v) x) (t.set v x)
  | 0, t, p, h, _, hp, hx => by
    rw [Tree.leaf, Option.some.injEq] at hp
    subst hp
    intro j
    show _ = Function.update t.value (digit fanout 0 v) x j
    by_cases hj : j = digit fanout 0 v
    · subst hj
      rw [Function.update_self]
      exact Kmem.pte_setPte_self ((digit fanout 0 v).isLt.trans_le fanout_eq.le) hx
    · rw [Function.update_of_ne hj]
      exact (Kmem.pte_setPte_of_ne fun he => hj (Fin.ext he)).trans (h j)
  | l + 1, t, p, h, hnd, hp, hx => by
    rw [Tree.leaf] at hp
    rw [Tree.set]
    cases hi : t.child (digit fanout (l + 1) v) with
    | none => simp [hi] at hp
    | some k =>
      rw [hi] at hp
      obtain ⟨hpte, ha, hk⟩ := h.some hi
      have hkid := Multiset.nodup_of_le (Tree.labels_child_le hi) hnd
      obtain ⟨hnot, hknd⟩ := Multiset.nodup_cons.mp hkid
      have hmem := Tree.leaf_mem_labels hp
      have hpage : ∀ b, b ≠ p → (m.setPte p (digit fanout 0 v) x).page b = m.page b :=
        fun b hb => Kmem.page_setPage_of_ne hb
      have hnode := hpage t.label fun he => hnot (he ▸ hmem)
      refine h.setChild (hk.setPte hknd hp hx) (by rwa [Tree.label_set]) ?_
        (fun j _ => Kmem.pte_congr hnode) fun j hj k' hk' b hb => hpage b ?_
      · rw [Tree.label_set, Kmem.pte_congr hnode, hpte]
      · rintro rfl
        have hpair := Multiset.nodup_of_le (Tree.labels_children_le hj hk' hi) hnd
        exact Multiset.disjoint_left.mp (Multiset.nodup_add.mp hpair).2.2 hb hmem

theorem digit_zero_px (va : ℕ) : ((digit fanout 0 (va / pgSize) : Fin fanout) : ℕ) = px 0 va :=
  digit_px 0 va

theorem mod_fanout {v : ℕ} (h : v < maxVa / pgSize) : v % fanout ^ (2 + 1) = v := by
  rw [fanout_eq]
  exact Nat.mod_eq_of_lt (h.trans (by decide))

theorem div_pgSize_lt (h : va < maxVa) : va / pgSize < maxVa / pgSize :=
  Nat.div_lt_div_of_lt_of_dvd (by decide) h

theorem find_set_page {t : Table 2} {v w x : ℕ} (hv : v < maxVa / pgSize) (hw : w < maxVa / pgSize)
    (h : t.missing v = 0) : (t.set v x).find 0 w = if w = v then x else t.find 0 w := by
  rw [Tree.find_set t h, mod_fanout hv, mod_fanout hw]

theorem find_of_leaf_none (h : t.leaf v = none) : t.find 0 v = 0 :=
  Tree.find_of_missing (Tree.leaf_eq_none.mp h)

theorem missing_of_leaf {p : ℕ} (h : t.leaf v = some p) : t.missing v = 0 := by
  by_contra hne
  rw [Tree.leaf_eq_none.mpr hne] at h
  cases h

theorem leaf_of_find (h : t.find 0 v ≠ 0) : ∃ p, t.leaf v = some p := by
  cases hl : t.leaf v with
  | none => exact absurd (find_of_leaf_none hl) h
  | some p => exact ⟨p, rfl⟩

theorem walkaddr_eq (va : ℕ) (h : Rep m t) : walkaddr t.label va m =
    .ok (if va < maxVa ∧ t.find 0 (va / pgSize) &&& pteV ≠ 0 ∧
      t.find 0 (va / pgSize) &&& pteU ≠ 0 then pte2pa (t.find 0 (va / pgSize)) else 0, m) := by
  unfold walkaddr
  by_cases hva : va < maxVa
  · have hwalk := walk_eq h hva
    rw [if_neg (by omega), bind_of_ok hwalk]
    cases hl : t.leaf (va / pgSize) with
    | none =>
      rw [find_of_leaf_none hl, if_neg fun hc => hc.2.1 (Nat.zero_and _)]
      rfl
    | some p =>
      have hpte := h.pte_leaf hl
      rw [digit_zero_px] at hpte
      have hload : loadPte p (px 0 va) m = .ok (t.find 0 (va / pgSize), m) := by
        rw [loadPte, hpte]
      simp only [Option.map_some]
      rw [bind_of_ok hload]
      by_cases hV : t.find 0 (va / pgSize) &&& pteV = 0
      · rw [if_pos hV, if_neg fun hc => hc.2.1 hV]
        rfl
      by_cases hU : t.find 0 (va / pgSize) &&& pteU = 0
      · rw [if_neg hV, if_pos hU, if_neg fun hc => hc.2.2 hU]
        rfl
      · rw [if_neg hV, if_neg hU, if_pos ⟨hva, hV, hU⟩]
        rfl
  · rw [if_pos (by omega), if_neg fun hc => hva hc.1]
    rfl

end Xv6.Vm
