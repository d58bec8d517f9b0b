import Mathlib.Data.Finset.Sort
import Mathlib.Tactic

/-! Circular lists in the order of their elements: going up through a finite set and around. -/
namespace Xv6.Lib

section Order

variable {α : Type*} [LinearOrder α] {a b p x : α} {S : Finset α} {next : α → α}

/-- `x` is passed on the way up from `a`, and possibly around, to `b`. -/
def Between (a b x : α) : Prop := (a < x ∧ x < b) ∨ (b ≤ a ∧ (a < x ∨ x < b))

instance : Decidable (Between a b x) := inferInstanceAs (Decidable (_ ∨ _))

def Follows (S : Finset α) (a b : α) : Prop := b ∈ S ∧ ∀ x ∈ S, ¬Between a b x

/-- The pointers lead from each element to the next one. -/
def IsRing (S : Finset α) (next : α → α) : Prop := ∀ a ∈ S, Follows S a (next a)

theorem IsRing.singleton (h : next a = a) : IsRing {a} next := by
  intro b hb
  rw [Finset.mem_singleton.mp hb, h]
  refine ⟨Finset.mem_singleton_self a, fun x hx => ?_⟩
  rw [Finset.mem_singleton.mp hx]
  simp [Between]

theorem IsRing.congr {next' : α → α} (h : IsRing S next) (heq : ∀ a ∈ S, next' a = next a) :
    IsRing S next' := by
  intro a ha
  rw [heq a ha]
  exact h a ha

theorem IsRing.insert {next' : α → α} (h : IsRing S next) (hp : p ∈ S) (hx : x ∉ S)
    (hb : Between p (next p) x) (hp' : next' p = x) (hx' : next' x = next p)
    (hother : ∀ a ∈ S, a ≠ p → next' a = next a) : IsRing (insert x S) next' := by
  have hxp : x ≠ p := fun heq => hx (heq ▸ hp)
  obtain ⟨hpn, hpS⟩ := h p hp
  intro a ha
  rcases Finset.mem_insert.mp ha with rfl | haS
  · rw [hx']
    refine ⟨Finset.mem_insert_of_mem hpn, fun y hy => ?_⟩
    rcases Finset.mem_insert.mp hy with rfl | hyS
    · unfold Between
      grind
    · have := hpS y hyS
      unfold Between at *
      grind
  · by_cases hap : a = p
    · rw [hap, hp']
      refine ⟨Finset.mem_insert_self x S, fun y hy => ?_⟩
      rcases Finset.mem_insert.mp hy with rfl | hyS
      · unfold Between
        grind
      · have := hpS y hyS
        unfold Between at *
        grind
    · rw [hother a haS hap]
      obtain ⟨han, haS'⟩ := h a haS
      refine ⟨Finset.mem_insert_of_mem han, fun y hy => ?_⟩
      rcases Finset.mem_insert.mp hy with rfl | hyS
      · have h₁ := haS' p hp
        have h₂ := haS' (next p) hpn
        have h₃ := hpS a haS
        have h₄ := hpS (next a) han
        unfold Between at *
        grind
      · exact haS' y hyS

theorem IsRing.erase {next' : α → α} (h : IsRing S next) (hp : p ∈ S) (hne : next p ≠ p)
    (hp' : next' p = next (next p)) (hother : ∀ a ∈ S, a ≠ p → a ≠ next p → next' a = next a) :
    IsRing (S.erase (next p)) next' := by
  obtain ⟨hxS, hpS⟩ := h p hp
  obtain ⟨hyS, hx⟩ := h (next p) hxS
  have hxp := hx p hp
  intro a ha
  obtain ⟨hax, haS⟩ := Finset.mem_erase.mp ha
  by_cases hap : a = p
  · rw [hap, hp']
    constructor
    · refine Finset.mem_erase.mpr ⟨?_, hyS⟩
      unfold Between at hxp
      grind
    · intro y hy
      obtain ⟨hyx, hyS'⟩ := Finset.mem_erase.mp hy
      have h₁ := hpS y hyS'
      have h₂ := hx y hyS'
      unfold Between at *
      grind
  · rw [hother a haS hap hax]
    obtain ⟨han, haS'⟩ := h a haS
    constructor
    · refine Finset.mem_erase.mpr ⟨?_, han⟩
      intro heq
      have h₁ := haS' p hp
      have h₂ := hpS a haS
      rw [heq] at h₁
      unfold Between at h₁ h₂
      grind
    · intro y hy
      exact haS' y (Finset.mem_of_mem_erase hy)

theorem IsRing.exists_between (h : IsRing S next) (hne : S.Nonempty) (hx : x ∉ S) :
    ∃ a ∈ S, Between a (next a) x := by
  by_cases hlow : ∃ a ∈ S, a < x
  · obtain ⟨b, hb, hbx⟩ := hlow
    obtain ⟨a, ha, hmax⟩ := (S.filter (· < x)).exists_max_image id
      ⟨b, Finset.mem_filter.mpr ⟨hb, hbx⟩⟩
    obtain ⟨haS, hax⟩ := Finset.mem_filter.mp ha
    obtain ⟨hn, -⟩ := h a haS
    refine ⟨a, haS, ?_⟩
    have hnx : next a ≠ x := fun heq => hx (heq ▸ hn)
    have hle : next a < x → next a ≤ a := fun hlt => hmax _ (Finset.mem_filter.mpr ⟨hn, hlt⟩)
    unfold Between
    grind
  · obtain ⟨a, ha, hmax⟩ := S.exists_max_image id hne
    obtain ⟨hn, -⟩ := h a ha
    refine ⟨a, ha, Or.inr ⟨hmax _ hn, Or.inr ?_⟩⟩
    have hnx : next a ≠ x := fun heq => hx (heq ▸ hn)
    exact lt_of_le_of_ne (not_lt.mp fun hlt => hlow ⟨_, hn, hlt⟩) hnx.symm

/-- The pointers lead through a list and from its end to its beginning. -/
def Circles {β : Type*} (next : β → β) (l : List β) : Prop :=
  ∀ i a, l[i]? = some a → l[(i + 1) % l.length]? = some (next a)

theorem sort_lt {i j : ℕ} (hi : (S.sort)[i]? = some a) (hj : (S.sort)[j]? = some b) :
    a < b ↔ i < j := by
  obtain ⟨hi', rfl⟩ := List.getElem?_eq_some_iff.mp hi
  obtain ⟨hj', rfl⟩ := List.getElem?_eq_some_iff.mp hj
  exact (Finset.sortedLT_sort S).getElem_lt_getElem_iff

theorem mem_of_sort {i : ℕ} (hi : (S.sort)[i]? = some a) : a ∈ S :=
  (Finset.mem_sort (· ≤ ·)).mp (List.mem_of_getElem? hi)

theorem exists_sort_index (ha : a ∈ S) : ∃ i, (S.sort)[i]? = some a ∧ i < S.sort.length := by
  obtain ⟨i, hi⟩ := List.mem_iff_getElem?.mp ((Finset.mem_sort (· ≤ ·)).mpr ha)
  exact ⟨i, hi, (List.getElem?_eq_some_iff.mp hi).1⟩

theorem succ_mod {i n : ℕ} (h : i < n) :
    (i + 1) % n = i + 1 ∨ (i + 1 = n ∧ (i + 1) % n = 0) := by
  rcases Nat.lt_or_ge (i + 1) n with hlt | hge
  · exact Or.inl (Nat.mod_eq_of_lt hlt)
  · have heq : i + 1 = n := by omega
    exact Or.inr ⟨heq, by rw [heq, Nat.mod_self]⟩

/-- A ring is the sorted list of its elements, closed to a circle. -/
theorem circles_sort_iff : Circles next S.sort ↔ IsRing S next := by
  constructor
  · intro h a ha
    obtain ⟨i, hi, hilen⟩ := exists_sort_index ha
    have hn := h i a hi
    refine ⟨mem_of_sort hn, fun x hx => ?_⟩
    obtain ⟨j, hj, hjlen⟩ := exists_sort_index hx
    have hmod := succ_mod hilen
    rw [Between, ← not_lt, sort_lt hi hj, sort_lt hj hn, sort_lt hi hn]
    omega
  · intro h i a hi
    have hilen := (List.getElem?_eq_some_iff.mp hi).1
    obtain ⟨hn, hS⟩ := h a (mem_of_sort hi)
    obtain ⟨j, hj, hjlen⟩ := exists_sort_index hn
    have hlt : (i + 1) % S.sort.length < S.sort.length := Nat.mod_lt _ (by omega)
    have hc := List.getElem?_eq_getElem hlt
    have hbtw := hS _ (mem_of_sort hc)
    rw [Between, ← not_lt, sort_lt hi hc, sort_lt hc hj, sort_lt hi hj] at hbtw
    have hmod := succ_mod hilen
    have hij : (i + 1) % S.sort.length = j := by omega
    rw [hij]
    exact hj

end Order

section Search

variable {β : Type*} {next : β → β} {l : List β} {p q : β}

theorem Circles.iterate (h : Circles next l) {i : ℕ} (hi : l[i]? = some p) (k : ℕ) :
    l[(i + k) % l.length]? = some (next^[k] p) := by
  have hlen := (List.getElem?_eq_some_iff.mp hi).1
  induction k with
  | zero => rwa [Nat.add_zero, Nat.mod_eq_of_lt hlen]
  | succ k ih =>
    have hstep := h _ _ ih
    rwa [Nat.mod_add_mod, Nat.add_assoc, ← Function.iterate_succ_apply' next] at hstep

theorem Circles.reaches (h : Circles next l) (hp : p ∈ l) (hq : q ∈ l) :
    ∃ k < l.length, next^[k] p = q := by
  obtain ⟨i, hi⟩ := List.mem_iff_getElem?.mp hp
  obtain ⟨j, hj⟩ := List.mem_iff_getElem?.mp hq
  have hilen := (List.getElem?_eq_some_iff.mp hi).1
  have hjlen := (List.getElem?_eq_some_iff.mp hj).1
  rcases Nat.le_total i j with hij | hji
  · refine ⟨j - i, by omega, ?_⟩
    have hit := h.iterate hi (j - i)
    rw [show i + (j - i) = j by omega, Nat.mod_eq_of_lt hjlen, hj] at hit
    exact (Option.some.inj hit).symm
  · rcases Nat.eq_or_lt_of_le hji with rfl | hlt
    · exact ⟨0, by omega, Option.some.inj (hi.symm.trans hj)⟩
    · refine ⟨l.length - i + j, by omega, ?_⟩
      have hit := h.iterate hi (l.length - i + j)
      rw [show i + (l.length - i + j) = j + l.length by omega, Nat.add_mod_right,
        Nat.mod_eq_of_lt hjlen, hj] at hit
      exact (Option.some.inj hit).symm

/-- Follow the pointers until an element is one to stop at. -/
def search (next : β → β) (stop : β → Bool) : ℕ → β → Option β
  | 0, _ => none
  | fuel + 1, p => if stop p then some p else search next stop fuel (next p)

theorem search_of_iterate {stop : β → Bool} {k fuel : ℕ} (hk : k < fuel)
    (h : stop (next^[k] p) = true) :
    ∃ j ≤ k, search next stop fuel p = some (next^[j] p) ∧ stop (next^[j] p) = true := by
  induction k generalizing p fuel with
  | zero =>
    obtain ⟨fuel, rfl⟩ : ∃ n, fuel = n + 1 := ⟨fuel - 1, by omega⟩
    have h0 : stop p = true := h
    exact ⟨0, le_rfl, by rw [search, if_pos h0]; rfl, h0⟩
  | succ k ih =>
    obtain ⟨fuel, rfl⟩ : ∃ n, fuel = n + 1 := ⟨fuel - 1, by omega⟩
    by_cases h0 : stop p = true
    · exact ⟨0, Nat.zero_le _, by rw [search, if_pos h0]; rfl, h0⟩
    · obtain ⟨j, hj, hs, hst⟩ := ih (show k < fuel by omega) h
      exact ⟨j + 1, by omega, by rw [search, if_neg h0, hs]; rfl, hst⟩

theorem search_mono {stop : β → Bool} {fuel fuel' : ℕ} (hle : fuel ≤ fuel')
    (h : search next stop fuel p = some q) : search next stop fuel' p = some q := by
  induction fuel generalizing p fuel' with
  | zero => cases h
  | succ fuel ih =>
    obtain ⟨fuel', rfl⟩ : ∃ n, fuel' = n + 1 := ⟨fuel' - 1, by omega⟩
    rw [search] at h ⊢
    split_ifs at h ⊢
    · exact h
    · exact ih (by omega) h

/-- The search around a circle ends if there is an element to stop at. -/
theorem Circles.search (h : Circles next l) {stop : β → Bool} {fuel : ℕ} (hfuel : l.length ≤ fuel)
    (hp : p ∈ l) (hq : q ∈ l) (hstop : stop q = true) :
    ∃ r ∈ l, Lib.search next stop fuel p = some r ∧ stop r = true := by
  obtain ⟨k, hk, rfl⟩ := h.reaches hp hq
  obtain ⟨j, -, hs, hst⟩ := search_of_iterate (show k < fuel by omega) hstop
  obtain ⟨i, hi⟩ := List.mem_iff_getElem?.mp hp
  exact ⟨_, List.mem_of_getElem? (h.iterate hi j), hs, hst⟩

end Search

end Xv6.Lib
