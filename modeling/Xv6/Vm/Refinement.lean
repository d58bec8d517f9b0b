import Xv6.Lib.System
import Xv6.Vm.Ranges

/-! Three-level page tables refine finite maps from virtual page numbers to physical pages and flags,
under any sequence of `mappages`, `uvmunmap` and `uvmclear`. -/
namespace Xv6.Vm

open Lib Lib.Radix

/-- What a page table is for: the physical page and the flags of each virtual page. -/
abbrev PageMap : Type := ℕ → Option (ℕ × ℕ)

namespace PageMap

/-- `n` pages from `v` on are mapped to the physical pages from `pa` on. -/
def map (f : PageMap) (v n pa perm : ℕ) : PageMap := fun w =>
  if v ≤ w ∧ w < v + n then some (pa + (w - v) * pgSize, perm ||| pteV) else f w

def unmap (f : PageMap) (v n : ℕ) : PageMap := fun w => if v ≤ w ∧ w < v + n then none else f w

/-- The user can no longer access page `v`. -/
def clear (f : PageMap) (v : ℕ) : PageMap :=
  Function.update f v ((f v).map fun e => (e.1, clearU e.2))

end PageMap

/-- The calls that have returned, with the pages and with whether `mappages` returned 0. -/
inductive Event where
  | map (v n pa perm : ℕ) (ok : Bool)
  | unmap (v n : ℕ)
  | clear (v : ℕ)

/-- What a call does to the map: a `mappages` that failed has mapped some of the first pages, and all
others have the entries that they had before. -/
inductive Event.Maps : Event → PageMap → PageMap → Prop
  | map {f} (v n pa perm) : Maps (.map v n pa perm true) f (f.map v n pa perm)
  | mapFail {f} (v n pa perm j) (hj : j < n) : Maps (.map v n pa perm false) f (f.map v j pa perm)
  | unmap {f} (v n) : Maps (.unmap v n) f (f.unmap v n)
  | clear {f} (v) : Maps (.clear v) f (f.clear v)

/-- A page table, the pages that `kalloc` has returned for it, and the calls so far. -/
structure TableState where
  mem : Kmem
  root : ℕ
  nodes : List ℕ
  events : List Event

/-- `kalloc` returns pages that the table does not have yet. -/
structure TableState.Fresh (s : TableState) : Prop where
  nodup : (s.nodes ++ s.mem.freelist).Nodup
  addr : ∀ a ∈ s.mem.freelist, PageAddr a

/-- `perm` has some of the bits R, W, X and U, and one of R, W, X. -/
structure Perm (perm : ℕ) : Prop where
  lt : perm < 32
  notV : perm &&& pteV = 0
  rwx : perm &&& (pteR ||| pteW ||| pteX) ≠ 0

/-- The calls. Between them other code may change all pages but those of the table, and what
`kalloc` will return. -/
inductive TableStep (L : Layout) : TableState → TableState → Prop
  | map {s} (va size pa perm : ℕ) (ok m' ps) (hfresh : s.Fresh) (hva : va < maxVa)
      (hal : va % pgSize = 0) (hsize : size < 2 ^ 64) (hpa : pa < 2 ^ 56) (hpal : pa % pgSize = 0)
      (hpos : 0 < pa) (hperm : Perm perm)
      (hrun : mappages s.root va size pa perm s.mem = .ok (ok, m'))
      (hps : s.mem.freelist = ps ++ m'.freelist) :
      TableStep L s ⟨m', s.root, s.nodes ++ ps,
        s.events ++ [.map (va / pgSize) (size / pgSize) pa perm ok]⟩
  -- pages that are freed are not page-table pages of this table
  | unmap {s} (va npages : ℕ) (doFree m') (hmax : va + npages * pgSize ≤ maxVa)
      (hfree : doFree = true → ∀ w p i, va / pgSize ≤ w → w < va / pgSize + npages →
        walk s.root (w * pgSize) false s.mem = .ok (some (p, i), s.mem) →
        pte2pa (s.mem.pte p i) ∉ s.nodes)
      (hrun : uvmunmap L s.root va npages doFree s.mem = .ok ((), m')) :
      TableStep L s ⟨m', s.root, s.nodes, s.events ++ [.unmap (va / pgSize) npages]⟩
  | clear {s} (va : ℕ) (m') (hva : va < maxVa) (hrun : uvmclear s.root va s.mem = .ok ((), m')) :
      TableStep L s ⟨m', s.root, s.nodes, s.events ++ [.clear (va / pgSize)]⟩
  | other {s} (m') (h : ∀ a ∈ s.nodes, m'.page a = s.mem.page a) :
      TableStep L s ⟨m', s.root, s.nodes, s.events⟩

inductive TableInit : TableState → Prop
  | mk (m m' root) (haddr : PageAddr root) (hrun : uvmcreate m = .ok (some root, m')) :
      TableInit ⟨m', root, [root], []⟩

def tables (L : Layout) : System TableState where
  init := TableInit
  step := TableStep L

/-- Between the two states a call has returned, which turned `f` into `f'`, or none has. -/
def Follows (s s' : TableState) (f f' : PageMap) : Prop :=
  s'.events = s.events ∧ f' = f ∨ ∃ e, s'.events = s.events ++ [e] ∧ e.Maps f f'

/-- The map that the page table in memory stands for. -/
def pages (s : TableState) : PageMap := fun w =>
  match walk s.root (w * pgSize) false s.mem with
  | .ok (some (p, i), _) =>
    if s.mem.pte p i = 0 then none else some (pte2pa (s.mem.pte p i), pteFlags (s.mem.pte p i))
  | _ => none

def entry : Option (ℕ × ℕ) → ℕ
  | none => 0
  | some (pa, flags) => pa2pte pa ||| flags

structure Storable (pa flags : ℕ) : Prop where
  aligned : pa % pgSize = 0
  lt : pa < 2 ^ 64
  flags_lt : flags < 32
  valid : flags &&& pteV ≠ 0

def PageMap.Wf (f : PageMap) : Prop := ∀ w pa flags, f w = some (pa, flags) → Storable pa flags

variable {L : Layout} {s s' : TableState} {f : PageMap} {v n pa perm : ℕ} {m : Kmem}

/-- The page table is a tree without sharing, and its leaves are the entries of the map. -/
structure Refines (s : TableState) (t : Table 2) (f : PageMap) : Prop where
  rep : Rep s.mem t
  root : t.label = s.root
  labels : t.labels = s.nodes
  nodup : s.nodes.Nodup
  wf : f.Wf
  high : ∀ w, maxVa / pgSize ≤ w → f w = none
  find : ∀ w < maxVa / pgSize, t.find 0 w = entry (f w)

theorem PageMap.Wf.map (h : f.Wf) (hpal : pa % pgSize = 0) (hpa : pa + n * pgSize ≤ 2 ^ 64)
    (hperm : perm < 32) : (f.map v n pa perm).Wf := by
  intro w pa' flags hw
  unfold PageMap.map at hw
  split_ifs at hw with hin
  · obtain ⟨rfl, rfl⟩ := Prod.mk.inj (Option.some.inj hw)
    refine ⟨?_, ?_, Nat.or_lt_two_pow (n := 5) hperm (by decide), ?_⟩
    · rw [pgSize_eq] at *
      omega
    · rw [pgSize_eq] at *
      omega
    · rw [Nat.and_or_distrib_right]
      exact fun h0 => absurd (Nat.or_eq_zero_iff.mp h0).2 (by decide)
  · exact h w pa' flags hw

theorem PageMap.Wf.unmap (h : f.Wf) : (f.unmap v n).Wf := by
  intro w pa flags hw
  unfold PageMap.unmap at hw
  split_ifs at hw
  exact h w pa flags hw

theorem PageMap.Wf.clear (h : f.Wf) : (f.clear v).Wf := by
  intro w pa flags hw
  unfold PageMap.clear at hw
  by_cases hwv : w = v
  · subst hwv
    rw [Function.update_self, Option.map_eq_some_iff] at hw
    obtain ⟨e, he, hew⟩ := hw
    obtain ⟨rfl, rfl⟩ := Prod.mk.inj hew
    have hs := h w e.1 e.2 he
    have hvalid : ∀ x : Fin 32, (x : ℕ) &&& pteV ≠ 0 → clearU x &&& pteV ≠ 0 := by decide
    exact ⟨hs.aligned, hs.lt, lt_of_le_of_lt (Nat.sub_le _ _) hs.flags_lt,
      hvalid ⟨e.2, hs.flags_lt⟩ hs.valid⟩
  · rw [Function.update_of_ne hwv] at hw
    exact h w pa flags hw

theorem clearU_entry (h : f.Wf) (w : ℕ) :
    clearU (entry (f w)) = entry ((f w).map fun e => (e.1, clearU e.2)) := by
  cases hw : f w with
  | none => rfl
  | some e =>
    have hfl := (h w e.1 e.2 hw).flags_lt
    have hlt : clearU e.2 < 1024 := lt_of_le_of_lt (Nat.sub_le _ _) (hfl.trans (by decide))
    show clearU (pa2pte e.1 ||| e.2) = pa2pte e.1 ||| clearU e.2
    rw [clearU, pa2pte_or_and (by omega) (by decide), pa2pte_or (by omega), pa2pte_or hlt, clearU]
    have : e.2 &&& pteU ≤ e.2 := Nat.and_le_left
    omega

theorem TableInit.refines (h : TableInit s) : ∃ t, Refines s t fun _ => none := by
  cases h with
  | mk m m' root haddr hrun =>
    have hrep : Rep m' (Tree.empty 0 2 root : Table 2) := by
      unfold uvmcreate at hrun
      cases hk : kalloc m with
      | error e => simp [bind, StateT.bind, Except.bind, hk] at hrun
      | ok r =>
        obtain ⟨r, m₁⟩ := r
        rw [bind_of_ok hk] at hrun
        cases r with
        | none => cases hrun
        | some p =>
          cases hrun
          exact Rep.empty fun i => Kmem.pte_zero
    refine ⟨_, hrep, rfl, ?_, List.nodup_singleton root, ?_, fun _ _ => rfl, fun w _ => ?_⟩
    · rw [Tree.labels_empty]
      rfl
    · intro w pa flags hw
      cases hw
    · exact Tree.find_empty

theorem Refines.apart {t : Table 2} (h : Refines s t f) (hfresh : s.Fresh) : Apart s.mem t := by
  refine ⟨?_, hfresh.addr⟩
  rw [h.labels, Multiset.coe_add, Multiset.coe_nodup]
  exact hfresh.nodup

theorem TableStep.refines {t : Table 2} (hst : TableStep L s s') (h : Refines s t f) :
    ∃ t' f', Refines s' t' f' ∧ Follows s s' f f' := by
  have hnd : t.labels.Nodup := by
    rw [h.labels, Multiset.coe_nodup]
    exact h.nodup
  cases hst with
  | map va size pa perm ok m' ps hfresh hva hal hsize hpa hpal hpos hperm hrun hps =>
    have hspec := mappages_spec (t := t) h.rep (h.apart hfresh) (hperm.lt.trans (by decide)) hpa hal hsize
    rw [h.root] at hspec
    obtain ⟨j, qs, t', hr⟩ := hspec.of_ok hrun
    obtain rfl : qs = ps := List.append_cancel_right (hr.took.freelist.symm.trans hps)
    have hwf : (f.map (va / pgSize) j pa perm).Wf := by
      refine h.wf.map hpal ?_ hperm.lt
      have := hr.lt
      unfold maxVa at this
      rw [pgSize_eq] at *
      omega
    have hmaps : Event.Maps (.map (va / pgSize) (size / pgSize) pa perm ok) f
        (f.map (va / pgSize) j pa perm) := by
      cases ok with
      | true => exact hr.done rfl ▸ .map _ _ _ _
      | false => exact .mapFail _ _ _ _ _ (hr.short rfl)
    refine ⟨t', _, ⟨hr.rep, hr.label.trans h.root, ?_, ?_, hwf, fun w hw => ?_, fun w hw => ?_⟩,
      Or.inr ⟨_, rfl, hmaps⟩⟩
    · rw [hr.labels, h.labels, Multiset.coe_add]
    · have hnodup := hfresh.nodup
      rw [hps, ← List.append_assoc] at hnodup
      exact (List.nodup_append.mp hnodup).1
    · have := hr.lt
      rw [PageMap.map, if_neg (by omega), h.high w hw]
    · rw [hr.find w hw, PageMap.map]
      split_ifs
      · exact Nat.or_assoc _ _ _
      · exact h.find w hw
  | unmap va npages doFree m' hmax hfree hrun =>
    unfold uvmunmap at hrun
    by_cases hal : va % pgSize ≠ 0
    · rw [if_pos hal] at hrun
      cases hrun
    rw [if_neg hal] at hrun
    have hva : va / pgSize * pgSize = va :=
      Nat.div_mul_cancel (Nat.dvd_of_mod_eq_zero (not_not.mp hal))
    have hlast : (va + npages * pgSize) % 2 ^ 64 = (va / pgSize + npages) * pgSize := by
      unfold maxVa at hmax
      rw [pgSize_eq] at *
      omega
    have hpages : va / pgSize + npages ≤ maxVa / pgSize := by
      unfold maxVa at *
      rw [pgSize_eq] at *
      omega
    have hloop := uvmunmapLoop_spec (L := L) (t := t) h.rep hnd hlast hpages
      fun (hd : doFree = true) w hw hw' hV => by
        have hne : t.find 0 w ≠ 0 := fun h0 => hV (by rw [h0]; exact Nat.zero_and _)
        obtain ⟨p, hp⟩ := leaf_of_find hne
        have hdiv : w * pgSize / pgSize = w := Nat.mul_div_cancel w (by decide)
        have hlow : w * pgSize < maxVa := by
          unfold maxVa at *
          rw [pgSize_eq] at *
          omega
        have hwalk := walk_eq h.rep hlow
        have hpte := h.rep.pte_leaf hp
        rw [hdiv, hp, h.root] at hwalk
        have := hfree hd w p _ hw hw' hwalk
        rw [← digit_px, hdiv, hpte] at this
        rwa [h.labels]
    rw [hva, h.root] at hloop
    obtain ⟨t', hr⟩ := hloop.of_ok hrun
    refine ⟨t', f.unmap (va / pgSize) npages, ⟨hr.rep, hr.label.trans h.root,
      hr.labels.trans h.labels, h.nodup, h.wf.unmap, fun w hw => ?_, fun w hw => ?_⟩,
      Or.inr ⟨_, rfl, .unmap _ _⟩⟩
    · rw [PageMap.unmap, if_neg (by omega), h.high w hw]
    · rw [hr.find w hw, PageMap.unmap]
      split_ifs
      · rfl
      · exact h.find w hw
  | clear va m' hva hrun =>
    have hspec := uvmclear_spec (t := t) va h.rep hnd
    rw [h.root] at hspec
    obtain ⟨hrep, hmiss, -, -⟩ := hspec.of_ok hrun
    have hv := div_pgSize_lt hva
    refine ⟨_, f.clear (va / pgSize), ⟨hrep, (Tree.label_set t).trans h.root,
      (Tree.labels_set t).trans h.labels, h.nodup, h.wf.clear, fun w hw => ?_, fun w hw => ?_⟩,
      Or.inr ⟨_, rfl, .clear _⟩⟩
    · rw [PageMap.clear, Function.update_of_ne (by omega), h.high w hw]
    rw [find_set_page hv hw hmiss, PageMap.clear]
    by_cases hwv : w = va / pgSize
    · subst hwv
      rw [if_pos rfl, Function.update_self, h.find _ hw, clearU_entry h.wf]
    · rw [if_neg hwv, Function.update_of_ne hwv, h.find w hw]
  | other m' hpage =>
    refine ⟨t, f, ⟨h.rep.frame fun a ha => hpage a ?_, h.root, h.labels, h.nodup, h.wf, h.high, h.find⟩,
      Or.inl ⟨rfl, rfl⟩⟩
    rw [h.labels] at ha
    exact ha

/-- In every run the table in memory is a tree with the entries of the map. -/
theorem Refines.of_reachable (h : (tables L).Reachable s) : ∃ t f, Refines s t f := by
  refine h.invariant (S := tables L) (I := fun s => ∃ t f, Refines s t f) ?_ ?_
  · intro s hs
    obtain ⟨t, hr⟩ := TableInit.refines hs
    exact ⟨t, _, hr⟩
  · rintro s s' - ⟨t, f, hr⟩ hst
    obtain ⟨t', f', hr', -⟩ := TableStep.refines hst hr
    exact ⟨t', f', hr'⟩

theorem entry_eq_zero (h : f.Wf) {w : ℕ} (h0 : entry (f w) = 0) : f w = none := by
  cases hw : f w with
  | none => rfl
  | some e =>
    have hs := h w e.1 e.2 hw
    rw [hw] at h0
    have hor : pa2pte e.1 ||| e.2 = 0 := h0
    have hflags : e.2 = 0 := (Nat.or_eq_zero_iff.mp hor).2
    exact absurd (by rw [hflags]; exact Nat.zero_and _) hs.valid

def userPage : Option (ℕ × ℕ) → ℕ
  | none => 0
  | some (pa, flags) => if flags &&& pteV ≠ 0 ∧ flags &&& pteU ≠ 0 then pa else 0

theorem userPage_eq (h : f.Wf) (w : ℕ) :
    (if entry (f w) &&& pteV ≠ 0 ∧ entry (f w) &&& pteU ≠ 0 then pte2pa (entry (f w)) else 0) =
      userPage (f w) := by
  cases hw : f w with
  | none =>
    rw [if_neg fun hc => hc.1 (Nat.zero_and _)]
    rfl
  | some e =>
    have hs := h w e.1 e.2 hw
    have hfl' : e.2 < 1024 := hs.flags_lt.trans (by decide)
    show (if (pa2pte e.1 ||| e.2) &&& pteV ≠ 0 ∧ (pa2pte e.1 ||| e.2) &&& pteU ≠ 0 then
      pte2pa (pa2pte e.1 ||| e.2) else 0) = if e.2 &&& pteV ≠ 0 ∧ e.2 &&& pteU ≠ 0 then e.1 else 0
    rw [pa2pte_or_and hfl' (by decide), pa2pte_or_and hfl' (by decide), pte2pa_or hfl' hs.lt hs.aligned]

theorem Refines.walk_eq {t : Table 2} {va : ℕ} (h : Refines s t f) (hva : va < maxVa) :
    walk s.root va false s.mem = .ok (none, s.mem) ∧ f (va / pgSize) = none ∨
      ∃ p i, walk s.root va false s.mem = .ok (some (p, i), s.mem) ∧
        s.mem.pte p i = entry (f (va / pgSize)) := by
  have hv := div_pgSize_lt hva
  have hwalk := Vm.walk_eq h.rep hva
  rw [h.root] at hwalk
  cases hl : t.leaf (va / pgSize) with
  | none =>
    left
    rw [hl] at hwalk
    refine ⟨hwalk, entry_eq_zero h.wf ?_⟩
    rw [← h.find _ hv, find_of_leaf_none hl]
  | some p =>
    right
    rw [hl] at hwalk
    refine ⟨p, px 0 va, hwalk, ?_⟩
    rw [← digit_zero_px, h.rep.pte_leaf hl, h.find _ hv]

/-- The map is the one that is read from memory. -/
theorem Refines.pages {t : Table 2} (h : Refines s t f) : pages s = f := by
  funext w
  have hdiv : w * pgSize / pgSize = w := Nat.mul_div_cancel w (by decide)
  by_cases hw : w < maxVa / pgSize
  · have hva : w * pgSize < maxVa := by
      unfold maxVa at *
      rw [pgSize_eq] at *
      omega
    have hcases := h.walk_eq hva
    rw [hdiv] at hcases
    unfold Vm.pages
    rcases hcases with ⟨hwalk, hnone⟩ | ⟨p, i, hwalk, hpte⟩
    · rw [hwalk, hnone]
    · rw [hwalk]
      simp only [hpte]
      cases hf : f w with
      | none => rfl
      | some e =>
        have hs := h.wf w e.1 e.2 hf
        have hfl : e.2 < 1024 := hs.flags_lt.trans (by decide)
        have hne : entry (some e) ≠ 0 := fun h0 => by
          have := entry_eq_zero h.wf (hf ▸ h0)
          rw [hf] at this
          cases this
        rw [if_neg hne]
        show some (pte2pa (pa2pte e.1 ||| e.2), pteFlags (pa2pte e.1 ||| e.2)) = some e
        rw [pte2pa_or hfl hs.lt hs.aligned, pteFlags_or hfl]
  · have hva : maxVa ≤ w * pgSize := by
      unfold maxVa at *
      rw [pgSize_eq] at *
      omega
    unfold Vm.pages walk
    rw [if_pos hva, h.high w (not_lt.mp hw)]
    rfl

/-- A page table starts as the empty map, and every call changes the map as its event says; `walk` and
`walkaddr` give the entries of the map. -/
theorem page_table_refines (h : (tables L).Reachable s) :
    (TableInit s → pages s = fun _ => none) ∧
    (∀ s', TableStep L s s' → Follows s s' (pages s) (pages s')) ∧
    ∀ va < maxVa,
      (walk s.root va false s.mem = .ok (none, s.mem) ∧ pages s (va / pgSize) = none ∨
        ∃ p i, walk s.root va false s.mem = .ok (some (p, i), s.mem) ∧
          s.mem.pte p i = entry (pages s (va / pgSize))) ∧
      walkaddr s.root va s.mem = .ok (userPage (pages s (va / pgSize)), s.mem) := by
  obtain ⟨t, f, hr⟩ := Refines.of_reachable h
  refine ⟨fun hinit => ?_, fun s' hst => ?_, fun va hva => ?_⟩
  · obtain ⟨t₀, hr₀⟩ := TableInit.refines hinit
    exact hr₀.pages
  · obtain ⟨t', f', hr', hfollows⟩ := TableStep.refines hst hr
    rwa [hr.pages, hr'.pages]
  · have haddr := walkaddr_eq va hr.rep
    rw [hr.pages]
    refine ⟨hr.walk_eq hva, ?_⟩
    rw [hr.root] at haddr
    rw [haddr, hr.find _ (div_pgSize_lt hva), ← userPage_eq hr.wf]
    simp only [hva, true_and]

def fivePages : Kmem where
  page _ _ := 0
  freelist := [0x80022000, 0x80023000, 0x80024000, 0x80025000, 0x80026000]
  calls := 0
  fails _ := false

def onePage : TableState where
  mem := ({ fivePages with
    freelist := [0x80023000, 0x80024000, 0x80025000, 0x80026000], calls := 1 }.setPage 0x80022000
      fun _ => 5).setPage 0x80022000 fun _ => 0
  root := 0x80022000
  nodes := [0x80022000]
  events := []

theorem onePage_init : TableInit onePage := .mk fivePages _ _ ⟨by decide, by decide⟩ rfl

theorem onePage_fresh : onePage.Fresh where
  nodup := by decide
  addr a ha := by
    have hall : ∀ a ∈ onePage.mem.freelist, a % pgSize = 0 ∧ a < 2 ^ 56 := by decide
    exact ⟨(hall a ha).1, (hall a ha).2⟩

/-- Page 0 of a new page table is mapped, which takes two more pages. -/
theorem page_table_refines_mapped : ∃ s, (tables smallKernel).Reachable s ∧
    s.events = [.map 0 1 0x80027000 (pteR ||| pteU) true] ∧
    pages s 0 = some (0x80027000, pteR ||| pteU ||| pteV) ∧ pages s 1 = none ∧
    walkaddr s.root 0 s.mem = .ok (0x80027000, s.mem) := by
  have hrun : (mappages onePage.root 0 pgSize 0x80027000 (pteR ||| pteU) onePage.mem).map
      (fun r => (r.1, r.2.freelist)) = .ok (true, [0x80025000, 0x80026000]) := by
    decide +kernel
  cases hm : mappages onePage.root 0 pgSize 0x80027000 (pteR ||| pteU) onePage.mem with
  | error e =>
    rw [hm] at hrun
    cases hrun
  | ok r =>
    obtain ⟨ok, m'⟩ := r
    rw [hm] at hrun
    obtain ⟨rfl, hfree⟩ := Prod.mk.inj (Except.ok.inj hrun)
    have hps : onePage.mem.freelist = [0x80023000, 0x80024000] ++ m'.freelist := by
      rw [show m'.freelist = _ from hfree]
      rfl
    obtain ⟨s, hev, hst⟩ : ∃ s, s.events = [.map 0 1 0x80027000 (pteR ||| pteU) true] ∧
        TableStep smallKernel onePage s :=
      ⟨_, rfl, .map 0 pgSize 0x80027000 (pteR ||| pteU) true m' _ onePage_fresh (by decide) (by decide)
        (by decide) (by decide) (by decide) (by decide) ⟨by decide, by decide, by decide⟩ hm hps⟩
    have h₀ : (tables smallKernel).Reachable onePage := .init onePage_init
    obtain ⟨hempty, hnext, -⟩ := page_table_refines h₀
    have hpages : pages s = PageMap.map (fun _ => none) 0 1 0x80027000 (pteR ||| pteU) := by
      rcases hnext s hst with ⟨hev', -⟩ | ⟨e, hev', hmaps⟩
      · cases hev.symm.trans hev'
      · rw [hempty onePage_init] at hmaps
        obtain rfl := List.singleton_inj.mp (hev.symm.trans hev')
        generalize pages s = f' at hmaps ⊢
        cases hmaps
        rfl
    have hs := h₀.step hst
    have haddr := ((page_table_refines hs).2.2 0 (by decide)).2
    rw [hpages] at haddr
    exact ⟨s, hs, hev, by rw [hpages]; rfl, by rw [hpages]; rfl, haddr⟩

/-- The root of a page table is mapped at page 0 and another page at page 1; then page 0 is unmapped
and the physical page is freed. -/
def freeRoot (L : Layout) : Kern (Bool × Bool × Option (ℕ × ℕ)) := do
  match ← uvmcreate with
  | none => throw "uvmcreate"
  | some root =>
    let a ← mappages root 0 pgSize root pteR
    let b ← mappages root pgSize pgSize 0x80027000 pteR
    uvmunmap L root 0 1 true
    return (a, b, ← walk root pgSize false)

/-- Page 512 is mapped, and then the pages 511 and 512 are to be mapped. -/
def mapTwice : Kern (Bool × Bool × ℕ) := do
  match ← uvmcreate with
  | none => throw "uvmcreate"
  | some root =>
    let a ← mappages root (512 * pgSize) pgSize 0x80027000 (pteR ||| pteU)
    let b ← mappages root (511 * pgSize) (2 * pgSize) 0x80028000 (pteR ||| pteU)
    return (a, b, ← walkaddr root (512 * pgSize))

/-- With the root freed, page 1 is no longer found. If there is no page for the table of page 511, the
second `mappages` fails, and page 512 is mapped as before. -/
theorem freed_root_loses_page :
    (freeRoot smallKernel fivePages).map Prod.fst = .ok (true, true, none) ∧
    (mapTwice { fivePages with freelist := [0x80022000, 0x80023000, 0x80024000] }).map Prod.fst =
      .ok (true, false, 0x80027000) := by
  decide +kernel

end Xv6.Vm
