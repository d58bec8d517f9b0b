import Mathlib.Algebra.BigOperators.Group.Multiset.Basic
import Mathlib.Algebra.BigOperators.Fin
import Mathlib.Data.Nat.Digits.Defs
import Mathlib.Tactic

/-! Radix trees of a fixed height with labelled nodes: looking up a key, adding the nodes on its path
and changing its value. Each key below `B ^ (l + 1)` has its own place in a tree of height `l`. -/
namespace Xv6.Lib.Radix

structure Node (B : ℕ) (ε : Type) where
  label : ℕ
  entry : Fin B → ε

/-- Trees with `l` levels of inner nodes. -/
def Tree (B : ℕ) (α : Type) : ℕ → Type
  | 0 => Node B α
  | l + 1 => Node B (Option (Tree B α l))

/-- The entry of key `v` in a node of level `l`. -/
def digit (B : ℕ) [NeZero B] (l v : ℕ) : Fin B := Fin.ofNat B (v / B ^ l)

/-- How many of the nodes on the paths of `v` and `w` below the root are not the same. -/
def apart (B : ℕ) [NeZero B] : ℕ → ℕ → ℕ → ℕ
  | 0, _, _ => 0
  | l + 1, v, w => if digit B (l + 1) v = digit B (l + 1) w then apart B l v w else l + 1

namespace Tree

variable {B : ℕ} {α : Type} {l : ℕ}

def label : {l : ℕ} → Tree B α l → ℕ
  | 0, t => Node.label t
  | _ + 1, t => Node.label t

def value (t : Tree B α 0) (i : Fin B) : α := Node.entry t i

def child (t : Tree B α (l + 1)) (i : Fin B) : Option (Tree B α l) := Node.entry t i

def setValue (t : Tree B α 0) (i : Fin B) (x : α) : Tree B α 0 :=
  Node.mk t.label (Function.update t.value i x)

def setChild (t : Tree B α (l + 1)) (i : Fin B) (k : Tree B α l) : Tree B α (l + 1) :=
  Node.mk t.label (Function.update t.child i (some k))

/-- A node without children, or with the value `d` everywhere. -/
def empty (d : α) : (l : ℕ) → ℕ → Tree B α l
  | 0, p => Node.mk p fun _ => d
  | _ + 1, p => Node.mk p fun _ => none

def labels : {l : ℕ} → Tree B α l → Multiset ℕ
  | 0, t => {t.label}
  | _ + 1, t => t.label ::ₘ ∑ i, (t.child i).elim 0 labels

variable [NeZero B]

/-- The value of `v`, which is `d` if its leaf is missing. -/
def find (d : α) : {l : ℕ} → Tree B α l → ℕ → α
  | 0, t, v => t.value (digit B 0 v)
  | l + 1, t, v =>
    match t.child (digit B (l + 1) v) with
    | none => d
    | some k => find d k v

def leaf : {l : ℕ} → Tree B α l → ℕ → Option ℕ
  | 0, t, _ => some t.label
  | l + 1, t, v =>
    match t.child (digit B (l + 1) v) with
    | none => none
    | some k => leaf k v

/-- How many nodes are missing on the path of `v`. -/
def missing : {l : ℕ} → Tree B α l → ℕ → ℕ
  | 0, _, _ => 0
  | l + 1, t, v =>
    match t.child (digit B (l + 1) v) with
    | none => l + 1
    | some k => missing k v

/-- Missing nodes on the path of `v` are added, with the labels `ps`, as far as they go. -/
def grow (d : α) : {l : ℕ} → Tree B α l → ℕ → List ℕ → Tree B α l
  | 0, t, _, _ => t
  | l + 1, t, v, ps =>
    match t.child (digit B (l + 1) v) with
    | some k => t.setChild (digit B (l + 1) v) (grow d k v ps)
    | none =>
      match ps with
      | [] => t
      | p :: ps => t.setChild (digit B (l + 1) v) (grow d (empty d l p) v ps)

/-- The value of `v` becomes `x`, if it has a leaf. -/
def set : {l : ℕ} → Tree B α l → ℕ → α → Tree B α l
  | 0, t, v, x => t.setValue (digit B 0 v) x
  | l + 1, t, v, x =>
    match t.child (digit B (l + 1) v) with
    | none => t
    | some k => t.setChild (digit B (l + 1) v) (set k v x)

variable {d x : α} {v w p : ℕ} {ps : List ℕ}

section Children

variable {t : Tree B α (l + 1)} {k : Tree B α l} {i j : Fin B}

omit [NeZero B] in
@[simp] theorem child_setChild_self : (t.setChild i k).child i = some k := by
  show Function.update t.child i (some k) i = _
  rw [Function.update_self]

omit [NeZero B] in
theorem child_setChild_of_ne (h : j ≠ i) : (t.setChild i k).child j = t.child j := by
  show Function.update t.child i (some k) j = _
  rw [Function.update_of_ne h]

omit [NeZero B] in
@[simp] theorem label_setChild : (t.setChild i k).label = t.label := rfl

omit [NeZero B] in
theorem labels_setChild :
    (t.setChild i k).labels + (t.child i).elim 0 labels = t.labels + k.labels := by
  have hsame : ∑ j ∈ Finset.univ.erase i, ((t.setChild i k).child j).elim 0 labels =
      ∑ j ∈ Finset.univ.erase i, (t.child j).elim 0 labels :=
    Finset.sum_congr rfl fun j hj => by rw [child_setChild_of_ne (Finset.ne_of_mem_erase hj)]
  have hnew := Finset.add_sum_erase Finset.univ (fun j => ((t.setChild i k).child j).elim 0 labels)
    (Finset.mem_univ i)
  have hold := Finset.add_sum_erase Finset.univ (fun j => (t.child j).elim 0 labels)
    (Finset.mem_univ i)
  rw [labels, labels, ← hnew, ← hold, hsame, child_setChild_self, label_setChild]
  simp only [Option.elim_some, ← Multiset.singleton_add]
  abel

omit [NeZero B] in
theorem labels_child_le (h : t.child i = some k) : t.label ::ₘ k.labels ≤ t.labels := by
  rw [labels]
  apply Multiset.cons_le_cons
  have := Finset.single_le_sum (f := fun j => (t.child j).elim 0 labels)
    (fun j _ => Multiset.zero_le _) (Finset.mem_univ i)
  simpa [h] using this

omit [NeZero B] in
theorem labels_children_le {k' : Tree B α l} (hij : i ≠ j) (hi : t.child i = some k)
    (hj : t.child j = some k') : k.labels + k'.labels ≤ t.labels := by
  have hpair : ∑ a ∈ ({i, j} : Finset (Fin B)), (t.child a).elim 0 labels = k.labels + k'.labels := by
    rw [Finset.sum_pair hij, hi, hj]
    rfl
  have hle := Finset.sum_le_sum_of_subset (f := fun a => (t.child a).elim 0 labels)
    (Finset.subset_univ ({i, j} : Finset (Fin B)))
  rw [hpair] at hle
  exact hle.trans (Multiset.le_cons_self _ _)

end Children

omit [NeZero B] in
theorem label_mem_labels : {l : ℕ} → (t : Tree B α l) → t.label ∈ t.labels
  | 0, _ => Multiset.mem_singleton_self _
  | _ + 1, _ => Multiset.mem_cons_self _ _

omit [NeZero B] in
@[simp] theorem label_empty : (empty d l p : Tree B α l).label = p := by
  cases l <;> rfl

omit [NeZero B] in
@[simp] theorem labels_empty : (empty d l p : Tree B α l).labels = {p} := by
  cases l with
  | zero => rfl
  | succ l =>
    have h : ∀ i, (empty d (l + 1) p : Tree B α (l + 1)).child i = none := fun _ => rfl
    simp [labels, h]

@[simp] theorem find_empty : (empty d l p : Tree B α l).find d v = d := by
  cases l <;> rfl

@[simp] theorem missing_empty : (empty d l p : Tree B α l).missing v = l := by
  cases l <;> rfl

theorem missing_le : {l : ℕ} → (t : Tree B α l) → (v : ℕ) → t.missing v ≤ l
  | 0, _, _ => le_rfl
  | l + 1, t, v => by
    rw [missing]
    cases t.child (digit B (l + 1) v) with
    | none => exact le_rfl
    | some k => exact (missing_le k v).trans (Nat.le_succ l)

theorem leaf_eq_none : {l : ℕ} → {t : Tree B α l} → t.leaf v = none ↔ t.missing v ≠ 0
  | 0, t => by simp [leaf, missing]
  | l + 1, t => by
    rw [leaf, missing]
    cases t.child (digit B (l + 1) v) with
    | none => simp
    | some k => exact leaf_eq_none

theorem find_of_missing : {l : ℕ} → {t : Tree B α l} → t.missing v ≠ 0 → t.find d v = d
  | 0, t, h => absurd rfl h
  | l + 1, t, h => by
    rw [missing] at h
    rw [find]
    cases hk : t.child (digit B (l + 1) v) with
    | none => rfl
    | some k =>
      rw [hk] at h
      exact find_of_missing h

theorem leaf_mem_labels : {l : ℕ} → {t : Tree B α l} → t.leaf v = some p → p ∈ t.labels
  | 0, t, h => by
    rw [leaf, Option.some.injEq] at h
    exact h ▸ label_mem_labels t
  | l + 1, t, h => by
    rw [leaf] at h
    cases hk : t.child (digit B (l + 1) v) with
    | none => simp [hk] at h
    | some k =>
      rw [hk] at h
      exact Multiset.mem_of_le ((Multiset.le_cons_self _ _).trans (labels_child_le hk))
        (leaf_mem_labels h)

/-! Adding nodes. -/

section Grow

variable {t : Tree B α (l + 1)} {k : Tree B α l}

theorem grow_some (h : t.child (digit B (l + 1) v) = some k) :
    t.grow d v ps = t.setChild (digit B (l + 1) v) (k.grow d v ps) := by
  cases ps <;> simp only [grow, h]

theorem grow_nil (h : t.child (digit B (l + 1) v) = none) : t.grow d v [] = t := by
  rw [grow, h]

theorem grow_cons (h : t.child (digit B (l + 1) v) = none) :
    t.grow d v (p :: ps) = t.setChild (digit B (l + 1) v) ((empty d l p).grow d v ps) := by
  rw [grow, h]

end Grow

@[simp] theorem label_grow (t : Tree B α l) : (t.grow d v ps).label = t.label := by
  cases l with
  | zero => rfl
  | succ l =>
    cases hk : t.child (digit B (l + 1) v) with
    | some k => rw [grow_some hk, label_setChild]
    | none =>
      cases ps with
      | nil => rw [grow_nil hk]
      | cons p ps => rw [grow_cons hk, label_setChild]

theorem find_grow : {l : ℕ} → (t : Tree B α l) → (ps : List ℕ) →
    (t.grow d v ps).find d w = t.find d w
  | 0, _, _ => rfl
  | l + 1, t, ps => by
    cases hk : t.child (digit B (l + 1) v) with
    | some k =>
      rw [grow_some hk]
      by_cases hw : digit B (l + 1) w = digit B (l + 1) v
      · simp only [find, hw, child_setChild_self, hk, find_grow k ps]
      · simp only [find, child_setChild_of_ne hw]
    | none =>
      cases ps with
      | nil => rw [grow_nil hk]
      | cons p ps =>
        rw [grow_cons hk]
        by_cases hw : digit B (l + 1) w = digit B (l + 1) v
        · simp only [find, hw, child_setChild_self, hk, find_grow _ ps, find_empty]
        · simp only [find, child_setChild_of_ne hw]

theorem labels_grow : {l : ℕ} → (t : Tree B α l) → (ps : List ℕ) → ps.length ≤ t.missing v →
    (t.grow d v ps).labels = t.labels + ps
  | 0, t, ps, h => by
    obtain rfl : ps = [] := List.length_eq_zero_iff.mp (Nat.le_zero.mp h)
    simp [grow]
  | l + 1, t, ps, h => by
    rw [missing] at h
    cases hk : t.child (digit B (l + 1) v) with
    | some k =>
      simp only [hk] at h
      have hset := labels_setChild (t := t) (i := digit B (l + 1) v) (k := k.grow d v ps)
      rw [hk, Option.elim_some, labels_grow k ps h] at hset
      have hcomm : t.labels + (k.labels + ↑ps) = t.labels + ↑ps + k.labels := by abel
      rw [grow_some hk]
      exact add_right_cancel (hset.trans hcomm)
    | none =>
      simp only [hk] at h
      cases ps with
      | nil => simp [grow_nil hk]
      | cons p ps =>
        have hlen : ps.length ≤ (empty d l p : Tree B α l).missing v := by
          rw [missing_empty]
          simpa using h
        have hset := labels_setChild (t := t) (i := digit B (l + 1) v)
          (k := (empty d l p).grow d v ps)
        rw [hk, Option.elim_none, add_zero, labels_grow _ ps hlen, labels_empty] at hset
        rw [grow_cons hk, hset, ← Multiset.cons_coe, Multiset.singleton_add]

theorem missing_grow_self : {l : ℕ} → (t : Tree B α l) → (ps : List ℕ) →
    (t.grow d v ps).missing v = t.missing v - ps.length
  | 0, _, _ => (Nat.zero_sub _).symm
  | l + 1, t, ps => by
    cases hk : t.child (digit B (l + 1) v) with
    | some k =>
      rw [grow_some hk]
      simp only [missing, child_setChild_self, hk, missing_grow_self k ps]
    | none =>
      cases ps with
      | nil => simp only [grow_nil hk, List.length_nil, Nat.sub_zero]
      | cons p ps =>
        rw [grow_cons hk]
        simp only [missing, child_setChild_self, hk, missing_grow_self _ ps, missing_empty,
          List.length_cons]
        omega

theorem apart_le (l v w : ℕ) : apart B l v w ≤ l := by
  induction l with
  | zero => exact le_rfl
  | succ l ih =>
    rw [apart]
    split_ifs
    · omega
    · exact le_rfl

theorem missing_grow_of_ne {t : Tree B α (l + 1)} (hw : digit B (l + 1) w ≠ digit B (l + 1) v) :
    (t.grow d v ps).missing w = t.missing w := by
  cases hk : t.child (digit B (l + 1) v) with
  | some k =>
    rw [grow_some hk]
    simp only [missing, child_setChild_of_ne hw]
  | none =>
    cases ps with
    | nil => rw [grow_nil hk]
    | cons p ps =>
      rw [grow_cons hk]
      simp only [missing, child_setChild_of_ne hw]

theorem missing_grow : {l : ℕ} → (t : Tree B α l) → (ps : List ℕ) → t.missing v ≤ ps.length →
    (t.grow d v ps).missing w = min (t.missing w) (apart B l v w)
  | 0, _, _, _ => (Nat.min_self 0).symm
  | l + 1, t, ps, h => by
    have hall := missing_le t w
    rw [missing] at h
    rw [apart]
    by_cases hw : digit B (l + 1) w = digit B (l + 1) v
    · rw [if_pos hw.symm]
      cases hk : t.child (digit B (l + 1) v) with
      | some k =>
        simp only [hk] at h
        rw [grow_some hk]
        simp only [missing, hw, child_setChild_self, hk, missing_grow k ps h]
      | none =>
        simp only [hk] at h
        cases ps with
        | nil => simp at h
        | cons p ps =>
          have hlen : (empty d l p : Tree B α l).missing v ≤ ps.length := by
            rw [missing_empty]
            simpa using h
          have := apart_le (B := B) l v w
          rw [grow_cons hk]
          simp only [missing, hw, child_setChild_self, hk, missing_grow _ ps hlen, missing_empty]
          omega
    · rw [if_neg (Ne.symm hw), min_eq_left hall, missing_grow_of_ne hw]

/-! Changing a value. -/

@[simp] theorem label_set (t : Tree B α l) : (t.set v x).label = t.label := by
  cases l with
  | zero => rfl
  | succ l =>
    rw [set]
    cases t.child (digit B (l + 1) v) <;> rfl

theorem labels_set : {l : ℕ} → (t : Tree B α l) → (t.set v x).labels = t.labels
  | 0, _ => rfl
  | l + 1, t => by
    rw [set]
    cases hk : t.child (digit B (l + 1) v) with
    | none => rfl
    | some k =>
      have hset := labels_setChild (t := t) (i := digit B (l + 1) v) (k := k.set v x)
      rw [hk, Option.elim_some, labels_set k] at hset
      exact add_right_cancel hset

theorem missing_set : {l : ℕ} → (t : Tree B α l) → (t.set v x).missing w = t.missing w
  | 0, _ => rfl
  | l + 1, t => by
    rw [set]
    cases hk : t.child (digit B (l + 1) v) with
    | none => rfl
    | some k =>
      by_cases hw : digit B (l + 1) w = digit B (l + 1) v
      · simp only [missing, hw, child_setChild_self, hk, missing_set k]
      · simp only [missing, child_setChild_of_ne hw]

theorem mod_pow_succ_eq_iff :
    v % B ^ (l + 1) = w % B ^ (l + 1) ↔
      digit B l v = digit B l w ∧ v % B ^ l = w % B ^ l := by
  have hpos : 0 < B ^ l := Nat.pow_pos (Nat.pos_of_neZero B)
  have hdigit : digit B l v = digit B l w ↔ v / B ^ l % B = w / B ^ l % B := Fin.ext_iff
  rw [hdigit, Nat.mod_pow_succ, Nat.mod_pow_succ]
  constructor
  · intro h
    have hv := Nat.mod_lt v hpos
    have hw := Nat.mod_lt w hpos
    have hmod := congrArg (· % B ^ l) h
    have hdiv := congrArg (· / B ^ l) h
    simp only [Nat.add_mul_mod_self_left, Nat.mod_mod] at hmod
    simp only [Nat.add_mul_div_left _ _ hpos, Nat.div_eq_of_lt hv, Nat.div_eq_of_lt hw,
      Nat.zero_add] at hdiv
    exact ⟨hdiv, hmod⟩
  · rintro ⟨hdiv, hmod⟩
    rw [hdiv, hmod]

theorem find_set : {l : ℕ} → (t : Tree B α l) → t.missing v = 0 →
    (t.set v x).find d w = if w % B ^ (l + 1) = v % B ^ (l + 1) then x else t.find d w
  | 0, t, _ => by
    have hdigit : digit B 0 w = digit B 0 v ↔ w % B ^ (0 + 1) = v % B ^ (0 + 1) := by
      simp [digit, Fin.ext_iff]
    show Function.update t.value (digit B 0 v) x (digit B 0 w) = _
    by_cases hw : digit B 0 w = digit B 0 v
    · rw [hw, Function.update_self, if_pos (hdigit.mp hw)]
    · rw [Function.update_of_ne hw, if_neg fun h => hw (hdigit.mpr h)]
      rfl
  | l + 1, t, h => by
    rw [missing] at h
    rw [set]
    simp only [mod_pow_succ_eq_iff (l := l + 1)]
    cases hk : t.child (digit B (l + 1) v) with
    | none => simp [hk] at h
    | some k =>
      simp only [hk] at h
      by_cases hw : digit B (l + 1) w = digit B (l + 1) v
      · simp only [find, hw, child_setChild_self, hk, true_and, find_set k h]
      · simp only [find, child_setChild_of_ne hw, hw, false_and, if_false]

theorem find_congr : {l : ℕ} → {t : Tree B α l} → v % B ^ (l + 1) = w % B ^ (l + 1) →
    t.find d v = t.find d w
  | 0, _, h => by
    rw [find, find, (mod_pow_succ_eq_iff.mp h).1]
  | l + 1, t, h => by
    obtain ⟨hdigit, hmod⟩ := mod_pow_succ_eq_iff.mp h
    rw [find, find, hdigit]
    cases t.child (digit B (l + 1) w) with
    | none => rfl
    | some k => exact find_congr hmod

theorem exists_find_child {t : Tree B α (l + 1)} {k : Tree B α l} {i : Fin B}
    (h : t.child i = some k) (v : ℕ) : ∃ w, t.find d w = k.find d v := by
  have hpos : 0 < B ^ (l + 1) := Nat.pow_pos (Nat.pos_of_neZero B)
  refine ⟨v % B ^ (l + 1) + B ^ (l + 1) * i, ?_⟩
  have hdigit : digit B (l + 1) (v % B ^ (l + 1) + B ^ (l + 1) * i) = i := by
    apply Fin.ext
    rw [digit, Fin.val_ofNat, Nat.add_mul_div_left _ _ hpos, Nat.div_eq_of_lt (Nat.mod_lt _ hpos),
      Nat.zero_add, Nat.mod_eq_of_lt i.isLt]
  rw [find, hdigit, h]
  apply find_congr
  rw [Nat.add_mul_mod_self_left, Nat.mod_mod]

theorem find_val {t : Tree B α 0} (i : Fin B) : t.find d i = t.value i := by
  rw [find]
  congr 1
  apply Fin.ext
  rw [digit, Fin.val_ofNat, Nat.pow_zero, Nat.div_one, Nat.mod_eq_of_lt i.isLt]

end Tree

end Xv6.Lib.Radix
