import Mathlib.Data.List.Chain
import Mathlib.Data.List.Nodup
import Mathlib.Tactic

/-! Circular doubly linked lists with a head: the pointers `next` and `prev` of the nodes, where `none` is
the head, and what inserting and removing a node does to the list that they make up. -/
namespace Xv6.Lib

structure Links (α : Type*) where
  next : Option α → Option α
  prev : Option α → Option α

namespace Links

variable {α : Type*} [DecidableEq α] {r : Links α} {a b : α} {l l₁ l₂ : List α} {u v x y : Option α}

def insert (r : Links α) (b : α) : Links α :=
  let next := Function.update r.next (some b) (r.next none)
  let prev := Function.update r.prev (some b) none
  let prev := Function.update prev (next none) (some b)
  let next := Function.update next none (some b)
  ⟨next, prev⟩

/-- The node is taken out. Its own pointers stay as they are. -/
def remove (r : Links α) (b : α) : Links α :=
  let prev := Function.update r.prev (r.next (some b)) (r.prev (some b))
  let next := Function.update r.next (prev (some b)) (r.next (some b))
  ⟨next, prev⟩

/-- The same pointers, read in the other direction. -/
def flip (r : Links α) : Links α := ⟨r.prev, r.next⟩

def Joined (r : Links α) (u v : Option α) : Prop := r.next u = v ∧ r.prev v = u

/-- The nodes after the head are those of the list, once each and in this order. -/
structure Lists (r : Links α) (l : List α) : Prop where
  nodup : l.Nodup
  chain : (none :: (l.map some ++ [none])).IsChain r.Joined

omit [DecidableEq α] in
theorem Lists.flip (h : r.Lists l) : r.flip.Lists l.reverse := by
  refine ⟨List.nodup_reverse.mpr h.nodup, ?_⟩
  have hrev : none :: (l.reverse.map some ++ [none]) = (none :: (l.map some ++ [none])).reverse := by
    simp
  rw [hrev, List.isChain_reverse]
  exact h.chain.imp fun _ _ hj => ⟨hj.2, hj.1⟩

omit [DecidableEq α] in
theorem lists_nil (hn : r.next none = none) (hp : r.prev none = none) : r.Lists [] :=
  ⟨List.nodup_nil, List.isChain_pair.mpr ⟨hn, hp⟩⟩

theorem joined_insert (hv : r.Joined none v) (hvb : v ≠ some b) :
    (r.insert b).Joined none (some b) ∧ (r.insert b).Joined (some b) v := by
  obtain ⟨hn, -⟩ := hv
  refine ⟨⟨?_, ?_⟩, ?_, ?_⟩
  · simp [insert]
  · simp [insert, hn, hvb.symm]
  · simp [insert, hn]
  · simp [insert, hn]

theorem joined_insert_of_joined (hv : r.Joined none v) (h : r.Joined x y) (hx : x ≠ none)
    (hxb : x ≠ some b) (hyb : y ≠ some b) : (r.insert b).Joined x y := by
  have hy : y ≠ v := by
    rintro rfl
    exact hx (h.2.symm.trans hv.2)
  refine ⟨?_, ?_⟩
  · simp [insert, hx, hxb, h.1]
  · simp [insert, hv.1, hy, hyb, h.2]

theorem Lists.insert (h : r.Lists l) (hb : b ∉ l) : (r.insert b).Lists (b :: l) := by
  obtain ⟨v, tl, htl⟩ : ∃ v tl, l.map some ++ [none] = v :: tl := by
    cases l with
    | nil => exact ⟨none, [], rfl⟩
    | cons a l => exact ⟨some a, l.map some ++ [none], rfl⟩
  have hnd : (l.map some ++ [none]).Nodup := by
    simpa [List.nodup_append] using (List.nodup_map_iff (Option.some_injective α)).mpr h.nodup
  have hne : ∀ x ∈ l.map some ++ [none], x ≠ some b := by
    rintro x hx rfl
    simp [hb] at hx
  have hc := h.chain
  rw [htl] at hc hnd hne
  obtain ⟨hv, hc⟩ := List.isChain_cons_cons.mp hc
  refine ⟨List.nodup_cons.mpr ⟨hb, h.nodup⟩, ?_⟩
  obtain ⟨h₁, h₂⟩ := joined_insert hv (hne v List.mem_cons_self)
  rw [List.map_cons, List.cons_append, htl]
  refine List.isChain_cons_cons.mpr ⟨h₁, List.isChain_cons_cons.mpr ⟨h₂, ?_⟩⟩
  apply hc.imp_of_mem_tail_imp
  intro x y hx hy hj
  apply joined_insert_of_joined hv hj _ (hne x hx) (hne y (List.mem_cons_of_mem _ hy))
  -- a successor of the head would be the first node again
  rintro rfl
  obtain rfl : v = y := hv.1.symm.trans hj.1
  exact (List.nodup_cons.mp hnd).1 hy

theorem joined_remove (hu : r.Joined u (some b)) (hv : r.Joined (some b) v) (hub : u ≠ some b) :
    (r.remove b).Joined u v := by
  have hvb : v ≠ some b := by
    rintro rfl
    exact hub (hu.2.symm.trans hv.2)
  refine ⟨?_, ?_⟩
  · simp [remove, hv.1, hvb.symm, hu.2]
  · simp [remove, hv.1, hu.2]

theorem joined_remove_of_joined (hu : r.Joined u (some b)) (hv : r.Joined (some b) v)
    (hub : u ≠ some b) (h : r.Joined x y) (hxb : x ≠ some b) (hyb : y ≠ some b) :
    (r.remove b).Joined x y := by
  have hvb : v ≠ some b := by
    rintro rfl
    exact hub (hu.2.symm.trans hv.2)
  have hx : x ≠ u := by
    rintro rfl
    exact hyb (h.1.symm.trans hu.1)
  have hy : y ≠ v := by
    rintro rfl
    exact hxb (h.2.symm.trans hv.2)
  refine ⟨?_, ?_⟩
  · simp [remove, hv.1, hvb.symm, hu.2, hx, h.1]
  · simp [remove, hv.1, hy, h.2]

theorem Lists.remove (h : r.Lists (l₁ ++ b :: l₂)) : (r.remove b).Lists (l₁ ++ l₂) := by
  obtain ⟨hnd, hc⟩ := h
  have hb : b ∉ l₁ ++ l₂ := (List.nodup_middle.mp hnd |> List.nodup_cons.mp).1
  have hsplit : none :: ((l₁ ++ b :: l₂).map some ++ [none]) =
      (none :: l₁.map some) ++ some b :: (l₂.map some ++ [none]) := by simp
  rw [hsplit, List.isChain_split] at hc
  obtain ⟨hc₁, hc₂⟩ := hc
  obtain ⟨ini, u, hini⟩ : ∃ ini u, none :: l₁.map some = ini ++ [u] :=
    ⟨_, _, (List.dropLast_append_getLast (List.cons_ne_nil _ _)).symm⟩
  obtain ⟨v, tl, htl⟩ : ∃ v tl, l₂.map some ++ [none] = v :: tl := by
    cases l₂ with
    | nil => exact ⟨none, [], rfl⟩
    | cons a l => exact ⟨some a, l.map some ++ [none], rfl⟩
  have hne₁ : ∀ x ∈ none :: l₁.map some, x ≠ some b := by
    rintro x hx rfl
    simp [List.mem_append, not_or] at hx hb
    exact hb.1 hx
  have hne₂ : ∀ x ∈ l₂.map some ++ [none], x ≠ some b := by
    rintro x hx rfl
    simp [List.mem_append, not_or] at hx hb
    exact hb.2 hx
  rw [hini, List.append_assoc, List.singleton_append, List.isChain_split] at hc₁
  rw [htl] at hc₂
  have hu : r.Joined u (some b) := List.isChain_pair.mp hc₁.2
  have hub : u ≠ some b := hne₁ u (by rw [hini]; simp)
  obtain ⟨hv, hc₂⟩ := List.isChain_cons_cons.mp hc₂
  refine ⟨(List.nodup_cons.mp (List.nodup_middle.mp hnd)).2, ?_⟩
  have hgoal : none :: ((l₁ ++ l₂).map some ++ [none]) = ini ++ u :: v :: tl := by
    rw [← htl, List.map_append, List.append_assoc, ← List.cons_append, hini]
    simp
  rw [hgoal, List.isChain_append_cons_cons]
  refine ⟨?_, joined_remove hu hv hub, ?_⟩
  · apply hc₁.1.imp_of_mem_imp
    intro x y hx hy hj
    rw [← hini] at hx hy
    exact joined_remove_of_joined hu hv hub hj (hne₁ x hx) (hne₁ y hy)
  · apply hc₂.imp_of_mem_imp
    intro x y hx hy hj
    rw [← htl] at hx hy
    exact joined_remove_of_joined hu hv hub hj (hne₂ x hx) (hne₂ y hy)

omit [DecidableEq α] in
/-- Following the pointers visits the nodes in order and comes back to the head. -/
theorem Lists.iterate_next (h : r.Lists l) (k : ℕ) (hk : k ≤ l.length) : r.next^[k + 1] none = l[k]? := by
  have hget := List.isChain_iff_getElem.mp h.chain
  have hstep : ∀ k, k ≤ l.length → r.next ((none :: (l.map some ++ [none]))[k]?).join = l[k]? := by
    intro k hk
    have hj := (hget k (by simp; omega)).1
    rw [List.getElem?_eq_getElem (by simp; omega)]
    have hright : (none :: (l.map some ++ [none]))[k + 1]? = some l[k]? := by
      rcases Nat.lt_or_ge k l.length with hlt | hge
      · simp [List.getElem?_append_left, hlt]
      · obtain rfl : k = l.length := by omega
        simp
    rw [List.getElem?_eq_getElem (by simp; omega)] at hright
    exact hj.trans (Option.some.inj hright)
  induction k with
  | zero => exact hstep 0 (Nat.zero_le _)
  | succ k ih =>
    rw [Function.iterate_succ_apply', ih (by omega), ← hstep (k + 1) hk]
    congr 1
    have : k < l.length := by omega
    simp [List.getElem?_append_left, this]

/-- The loop that follows the pointers from a node up to the head and stops at the first node with the
property, with fuel. -/
def scan (f : Option α → Option α) (p : α → Bool) : ℕ → Option α → Option (Option α)
  | 0, _ => none
  | _ + 1, none => some none
  | n + 1, some a => if p a then some (some a) else scan f p n (f (some a))

omit [DecidableEq α] in
/-- It does not run out of fuel, and finds the first node of the list. -/
theorem Lists.scan_next (h : r.Lists l) (p : α → Bool) (n : ℕ) (hn : l.length < n) :
    scan r.next p n (r.next none) = some (l.find? p) := by
  have hgen : ∀ (l : List α) (u : Option α) (n : ℕ), l.length < n →
      (u :: (l.map some ++ [none])).IsChain r.Joined →
      scan r.next p n (r.next u) = some (l.find? p) := by
    intro l
    induction l with
    | nil =>
      intro u n hn hc
      obtain ⟨n, rfl⟩ : ∃ m, n = m + 1 := ⟨n - 1, by simp at hn; omega⟩
      rw [show r.next u = none from (List.isChain_pair.mp hc).1]
      rfl
    | cons a l ih =>
      intro u n hn hc
      obtain ⟨n, rfl⟩ : ∃ m, n = m + 1 := ⟨n - 1, by simp at hn; omega⟩
      obtain ⟨hj, hc⟩ := List.isChain_cons_cons.mp hc
      rw [show r.next u = some a from hj.1, scan, List.find?_cons]
      cases hp : p a with
      | true => rfl
      | false => exact ih (some a) n (by simp at hn; omega) hc
  exact hgen l none n hn h.chain

end Links

end Xv6.Lib
