import Xv6.Umalloc.FreeList

/-! `free` of `user/umalloc.c`. -/
namespace Xv6.Umalloc

open Lib

/-- The headers in memory, the static `freep` (0 until the first call), and the break. -/
structure Heap where
  hdr : ℕ → Header
  freep : ℕ
  brk : ℕ

/-- The two exits of the search loop: between two blocks, or at the wrap. -/
def freeStop (hdr : ℕ → Header) (bp p : ℕ) : Bool :=
  (bp > p && bp < (hdr p).ptr) || (p ≥ (hdr p).ptr && (bp > p || bp < (hdr p).ptr))

def addSize (m n : ℕ) : ℕ := (m + n) % 2 ^ 32

/-- The first coalescing test, with the block after `p`. -/
def joinUpper (hdr : ℕ → Header) (bp p : ℕ) : ℕ → Header :=
  if blockEnd hdr bp = (hdr p).ptr then
    Function.update hdr bp
      ⟨(hdr (hdr p).ptr).ptr, addSize (hdr bp).size (hdr (hdr p).ptr).size⟩
  else Function.update hdr bp ⟨(hdr p).ptr, (hdr bp).size⟩

def joinLower (hdr : ℕ → Header) (bp p : ℕ) : ℕ → Header :=
  if blockEnd hdr p = bp then
    Function.update hdr p ⟨(hdr bp).ptr, addSize (hdr p).size (hdr bp).size⟩
  else Function.update hdr p ⟨bp, (hdr p).size⟩

/-- `free`, if its search ends within `fuel` rounds. -/
def free (fuel : ℕ) (s : Heap) (ap : ℕ) : Option Heap := do
  let bp := ap - unit
  let p ← search (fun a => (s.hdr a).ptr) (freeStop s.hdr bp) fuel s.freep
  some { s with hdr := joinLower (joinUpper s.hdr bp p) bp p, freep := p }

theorem free_mono {fuel fuel' ap : ℕ} {s s' : Heap} (hle : fuel ≤ fuel')
    (h : free fuel s ap = some s') : free fuel' s ap = some s' := by
  rw [free, Option.bind_eq_bind, Option.bind_eq_some_iff] at h
  obtain ⟨p, hp, h⟩ := h
  rw [free, search_mono hle hp]
  exact h

/-- Following the pointers from `freep` leads through the blocks in the order of their addresses and
around. The blocks are disjoint, and none ends where another begins. -/
structure WellFormed (s : Heap) (S : Finset ℕ) : Prop where
  circles : Circles (fun a => (s.hdr a).ptr) S.sort
  mem : s.freep ∈ S
  apart : ∀ a ∈ S, ∀ b ∈ S, a < b → a + unit ≤ b ∧ blockEnd s.hdr a < b

/-- A well-formed list with `base` as its lowest and only empty block. -/
structure FreeList (base : ℕ) (s : Heap) (S : Finset ℕ) : Prop extends Listed base s.hdr S where
  mem : s.freep ∈ S
  gap : ∀ a ∈ S, ∀ b ∈ S, blockEnd s.hdr a = b → b ≤ a

variable {base bp p fuel : ℕ} {hdr : ℕ → Header} {s : Heap} {S : Finset ℕ}

theorem FreeList.wellFormed (h : FreeList base s S) : WellFormed s S := by
  refine ⟨circles_sort_iff.mpr h.ring, h.mem, ?_⟩
  intro a ha b hb hlt
  obtain ⟨hunit, hle⟩ := h.apart a ha b hb hlt
  have hgap := h.gap a ha b hb
  exact ⟨hunit, by omega⟩

theorem freeStop_iff : freeStop hdr bp p = true ↔ Between p (hdr p).ptr bp := by
  simp [freeStop, Between]

theorem FreeList.search (h : FreeList base s S) (hb : Apart base s.hdr S bp) (hfuel : S.card ≤ fuel) :
    ∃ p ∈ S, Lib.search (fun a => (s.hdr a).ptr) (freeStop s.hdr bp) fuel s.freep = some p ∧
      Between p (s.hdr p).ptr bp := by
  obtain ⟨q, hq, hbtw⟩ := h.ring.exists_between ⟨_, h.mem⟩ hb.not_mem
  have hcircles := circles_sort_iff.mpr h.ring
  have hmem : ∀ {a}, a ∈ S → a ∈ S.sort := fun ha => (Finset.mem_sort (· ≤ ·)).mpr ha
  have hlen : S.sort.length ≤ fuel := by rwa [Finset.length_sort]
  obtain ⟨p, hp, hsearch, hstop⟩ :=
    hcircles.search hlen (hmem h.mem) (hmem hq) (freeStop_iff.mpr hbtw)
  exact ⟨p, (Finset.mem_sort (· ≤ ·)).mp hp, hsearch, freeStop_iff.mp hstop⟩

/-- What a step of `free` leaves: a list with blocks of the old one and the new block, that cover the
same bytes, and other headers unchanged. -/
structure Freed (base : ℕ) (hdr hdr' : ℕ → Header) (S S' : Finset ℕ) (bp : ℕ) : Prop where
  listed : Listed base hdr' S'
  subset : S' ⊆ insert bp S
  covered : ∀ x, Covered hdr' S' x ↔ Covered hdr S x ∨ bp ≤ x ∧ x < blockEnd hdr bp
  frame : ∀ a ∉ insert bp S, hdr' a = hdr a

def linked (hdr : ℕ → Header) (bp p : ℕ) : ℕ → Header :=
  Function.update (Function.update hdr bp ⟨(hdr p).ptr, (hdr bp).size⟩) p ⟨bp, (hdr p).size⟩

section Linked

variable (hpb : p ≠ bp)
include hpb

theorem linked_block : linked hdr bp p bp = ⟨(hdr p).ptr, (hdr bp).size⟩ := by
  rw [linked, Function.update_of_ne hpb.symm, Function.update_self]

omit hpb in
theorem linked_pred : linked hdr bp p p = ⟨bp, (hdr p).size⟩ := by
  rw [linked, Function.update_self]

omit hpb in
theorem linked_other {a : ℕ} (hap : a ≠ p) (hab : a ≠ bp) : linked hdr bp p a = hdr a := by
  rw [linked, Function.update_of_ne hap, Function.update_of_ne hab]

theorem blockEnd_linked (a : ℕ) : blockEnd (linked hdr bp p) a = blockEnd hdr a := by
  by_cases hap : a = p
  · rw [blockEnd, hap, linked_pred, blockEnd]
  · by_cases hab : a = bp
    · rw [blockEnd, hab, linked_block hpb, blockEnd]
    · rw [blockEnd, linked_other hap hab, blockEnd]

end Linked

theorem Freed.link (h : Listed base hdr S) (hb : Apart base hdr S bp) (hp : p ∈ S)
    (hbtw : Between p (hdr p).ptr bp) :
    Freed base hdr (linked hdr bp p) S (insert bp S) bp := by
  have hpb : p ≠ bp := (h.predecessor hb hp hbtw).1.ne
  have hnot := hb.not_mem
  constructor
  · apply h.link hb hp hbtw linked_pred (linked_block hpb)
    intro a ha hap
    exact linked_other hap fun hab => hnot (hab ▸ ha)
  · exact subset_rfl
  · intro x
    simp only [Covered, blockEnd_linked hpb, Finset.mem_insert, exists_eq_or_imp]
    exact or_comm
  · intro a ha
    rw [Finset.mem_insert, not_or] at ha
    exact linked_other (fun hap => ha.2 (hap ▸ hp)) ha.1

theorem adjacent_linked (h : Listed base hdr S) (hgap : ∀ a ∈ S, ∀ b ∈ S, blockEnd hdr a = b → b ≤ a)
    (hb : Apart base hdr S bp) (hp : p ∈ S) (hbtw : Between p (hdr p).ptr bp) {a b : ℕ}
    (ha : a ∈ insert bp S) (hb' : b ∈ insert bp S) (hlt : a < b) (hadj : blockEnd hdr a = b) :
    a = p ∧ b = bp ∨ a = bp ∧ b = (hdr p).ptr := by
  obtain ⟨hpb, hn, hall⟩ := h.predecessor hb hp hbtw
  obtain ⟨hnS, -⟩ := h.follows hp
  rcases Finset.mem_insert.mp ha with rfl | haS
  · right
    rcases Finset.mem_insert.mp hb' with rfl | hbS
    · omega
    · have hbn := hall b hbS
      have hapart := hb.apart _ hnS
      have hpos : 0 < (hdr a).size := hb.size_pos
      unfold blockEnd unit at *
      omega
  · left
    rcases Finset.mem_insert.mp hb' with rfl | hbS
    · have hap := hall a haS
      rcases Nat.lt_or_ge a p with hlt' | hge
      · have := h.apart a haS p hp hlt'
        omega
      · omega
    · have := hgap a haS b hbS hadj
      omega

theorem Freed.merge {hdr₁ hdr₂ : ℕ → Header} {S₁ : Finset ℕ} {a b : ℕ}
    (h : Freed base hdr hdr₁ S S₁ bp) (ha : a ∈ S₁) (hab : (hdr₁ a).ptr = b)
    (hadj : blockEnd hdr₁ a = b) (hbase : a ≠ base)
    (ha' : hdr₂ a = ⟨(hdr₁ b).ptr, (hdr₁ a).size + (hdr₁ b).size⟩)
    (hother : ∀ c ∈ S₁, c ≠ a → c ≠ b → hdr₂ c = hdr₁ c)
    (hframe : ∀ c ∉ insert bp S, hdr₂ c = hdr c) : Freed base hdr hdr₂ S (S₁.erase b) bp := by
  obtain ⟨hlisted, hcovered⟩ := h.listed.merge ha hab hadj hbase ha' hother
  refine ⟨hlisted, (Finset.erase_subset b S₁).trans h.subset, ?_, hframe⟩
  intro x
  rw [hcovered, h.covered]

theorem addSize_eq {a m n : ℕ} (ha : 0 < a) (h : a + unit * m + unit * n ≤ heapMax) :
    addSize m n = m + n := by
  rw [addSize, Nat.mod_eq_of_lt]
  rw [unit, heapMax] at h
  omega

theorem joinUpper_of_ne {a : ℕ} (h : a ≠ bp) : joinUpper hdr bp p a = hdr a := by
  unfold joinUpper
  split_ifs
  · exact Function.update_of_ne h _ _
  · exact Function.update_of_ne h _ _

/-- The list after the first coalescing test, with `p` linked to the new block. -/
theorem free_upper (h : Listed base hdr S) (hgap : ∀ a ∈ S, ∀ b ∈ S, blockEnd hdr a = b → b ≤ a)
    (hb : Apart base hdr S bp) (hp : p ∈ S) (hbtw : Between p (hdr p).ptr bp) :
    ∃ S', Freed base hdr (Function.update (joinUpper hdr bp p) p ⟨bp, (hdr p).size⟩) S S' bp ∧
      p ∈ S' ∧ bp ∈ S' ∧
      (hdr bp).size ≤ (Function.update (joinUpper hdr bp p) p ⟨bp, (hdr p).size⟩ bp).size ∧
      ∀ a ∈ S', ∀ b ∈ S', a < b →
        blockEnd (Function.update (joinUpper hdr bp p) p ⟨bp, (hdr p).size⟩) a = b →
          a = p ∧ b = bp := by
  have hlink := Freed.link h hb hp hbtw
  obtain ⟨hpb, hn, hall⟩ := h.predecessor hb hp hbtw
  obtain ⟨hnS, -⟩ := h.follows hp
  have hadj := fun {a b} => adjacent_linked h hgap hb hp hbtw (a := a) (b := b)
  by_cases hupper : blockEnd hdr bp = (hdr p).ptr
  · -- the block after `p` is taken in
    have hpos := hb.size_pos
    have hbn : bp < (hdr p).ptr := by
      rw [← hupper, blockEnd, unit]
      omega
    have hsize : addSize (hdr bp).size (hdr (hdr p).ptr).size =
        (hdr bp).size + (hdr (hdr p).ptr).size := by
      apply addSize_eq (a := bp) (by omega)
      have hbelow := h.below _ hnS
      rw [blockEnd] at hupper hbelow
      omega
    have hblock : Function.update (joinUpper hdr bp p) p ⟨bp, (hdr p).size⟩ bp =
        ⟨(hdr (hdr p).ptr).ptr, (hdr bp).size + (hdr (hdr p).ptr).size⟩ := by
      rw [Function.update_of_ne hpb.ne', joinUpper, if_pos hupper, Function.update_self, hsize]
    have hother : ∀ c, c ≠ bp →
        Function.update (joinUpper hdr bp p) p ⟨bp, (hdr p).size⟩ c = linked hdr bp p c := by
      intro c hcb
      by_cases hcp : c = p
      · rw [hcp, Function.update_self, linked_pred]
      · rw [Function.update_of_ne hcp, joinUpper_of_ne hcb, linked_other hcp hcb]
    have hnext : linked hdr bp p (hdr p).ptr = hdr (hdr p).ptr :=
      linked_other (by omega) (by omega)
    refine ⟨(insert bp S).erase (hdr p).ptr, ?_, ?_, ?_, ?_, ?_⟩
    · apply hlink.merge (Finset.mem_insert_self bp S)
      · rw [linked_block hpb.ne]
      · rw [blockEnd_linked hpb.ne, hupper]
      · exact hb.base_lt.ne'
      · rw [hblock, hnext, linked_block hpb.ne]
      · exact fun c _ hcb _ => hother c hcb
      · intro c hc
        rw [hother c fun hcb => hc (hcb ▸ Finset.mem_insert_self bp S)]
        exact hlink.frame c hc
    · exact Finset.mem_erase.mpr ⟨by omega, Finset.mem_insert_of_mem hp⟩
    · exact Finset.mem_erase.mpr ⟨by omega, Finset.mem_insert_self bp S⟩
    · rw [hblock]
      exact Nat.le_add_right _ _
    · intro a ha b hb' hlt hend
      obtain ⟨han, ha⟩ := Finset.mem_erase.mp ha
      obtain ⟨hbn', hb'⟩ := Finset.mem_erase.mp hb'
      by_cases hab : a = bp
      · rcases Finset.mem_insert.mp hb' with rfl | hbS
        · omega
        · have hendn : blockEnd hdr (hdr p).ptr = b := by
            have hupper' : bp + unit * (hdr bp).size = (hdr p).ptr := hupper
            rw [blockEnd, hab, hblock] at hend
            have hend' : bp + unit * ((hdr bp).size + (hdr (hdr p).ptr).size) = b := hend
            rw [Nat.mul_add] at hend'
            rw [blockEnd]
            omega
          have hle := hgap _ hnS b hbS hendn
          have hbn := hall b hbS
          omega
      · rw [blockEnd, hother a hab] at hend
        rcases hadj ha hb' hlt (by rw [← blockEnd_linked hpb.ne]; exact hend) with hl | hr
        · exact hl
        · exact absurd hr.1 hab
  · have hlinked : Function.update (joinUpper hdr bp p) p ⟨bp, (hdr p).size⟩ = linked hdr bp p := by
      rw [joinUpper, if_neg hupper, linked]
    rw [hlinked]
    refine ⟨insert bp S, hlink, Finset.mem_insert_of_mem hp, Finset.mem_insert_self bp S,
      by rw [linked_block hpb.ne], ?_⟩
    intro a ha b hb' hlt hend
    rw [blockEnd_linked hpb.ne] at hend
    rcases hadj ha hb' hlt hend with hl | ⟨rfl, rfl⟩
    · exact hl
    · exact absurd hend hupper

/-- The list after the second one. The freed block is now in the one at `p`, or in the next. -/
theorem free_lower (h : Listed base hdr S) (hgap : ∀ a ∈ S, ∀ b ∈ S, blockEnd hdr a = b → b ≤ a)
    (hb : Apart base hdr S bp) (hp : p ∈ S) (hbtw : Between p (hdr p).ptr bp) :
    ∃ S', Freed base hdr (joinLower (joinUpper hdr bp p) bp p) S S' bp ∧ p ∈ S' ∧
      ((hdr bp).size ≤ (joinLower (joinUpper hdr bp p) bp p p).size ∨
        (joinLower (joinUpper hdr bp p) bp p p).ptr = bp ∧
          (hdr bp).size ≤ (joinLower (joinUpper hdr bp p) bp p bp).size) ∧
      ∀ a ∈ S', ∀ b ∈ S', blockEnd (joinLower (joinUpper hdr bp p) bp p) a = b → b ≤ a := by
  obtain ⟨S', hfreed, hpS, hbS, hgrown, hadj⟩ := free_upper h hgap hb hp hbtw
  have hpb := (h.predecessor hb hp hbtw).1
  have hpred : joinUpper hdr bp p p = hdr p := joinUpper_of_ne hpb.ne
  set hdr₂ := Function.update (joinUpper hdr bp p) p ⟨bp, (hdr p).size⟩ with hdr₂_def
  have hpred₂ : hdr₂ p = ⟨bp, (hdr p).size⟩ := Function.update_self _ _ _
  have hother₂ : ∀ c, c ≠ p → joinUpper hdr bp p c = hdr₂ c := fun c hc =>
    (Function.update_of_ne hc _ _).symm
  by_cases hlower : blockEnd (joinUpper hdr bp p) p = bp
  · -- the block is taken in by `p`
    have hend : p + unit * (hdr p).size = bp := by rwa [blockEnd, hpred] at hlower
    have hbase : p ≠ base := by
      intro heq
      rw [(h.size_eq_zero p hp).mpr heq] at hend
      omega
    have hbase_le := h.base_le p hp
    have hblock := hother₂ bp hpb.ne'
    have hbelow := hfreed.listed.below bp hbS
    have hsize : addSize (hdr p).size (hdr₂ bp).size = (hdr p).size + (hdr₂ bp).size := by
      apply addSize_eq (a := p) (by omega)
      rwa [hend]
    have hpred₃ : joinLower (joinUpper hdr bp p) bp p p =
        ⟨(hdr₂ bp).ptr, (hdr₂ p).size + (hdr₂ bp).size⟩ := by
      rw [joinLower, if_pos hlower, Function.update_self, hpred, hblock, hsize, hpred₂]
    have hother₃ : ∀ c, c ≠ p → joinLower (joinUpper hdr bp p) bp p c = hdr₂ c := by
      intro c hc
      rw [joinLower, if_pos hlower, Function.update_of_ne hc, hother₂ c hc]
    refine ⟨S'.erase bp, ?_, Finset.mem_erase.mpr ⟨hpb.ne, hpS⟩, Or.inl ?_, ?_⟩
    · apply hfreed.merge hpS
      · rw [hpred₂]
      · rw [blockEnd, hpred₂]
        exact hend
      · exact hbase
      · exact hpred₃
      · exact fun c _ hc _ => hother₃ c hc
      · intro c hc
        rw [hother₃ c fun hcp => hc (hcp ▸ Finset.mem_insert_of_mem hp)]
        exact hfreed.frame c hc
    · rw [hpred₃]
      exact hgrown.trans (Nat.le_add_left _ _)
    · intro a ha b hb' hend'
      obtain ⟨-, ha⟩ := Finset.mem_erase.mp ha
      obtain ⟨hbb, hb'⟩ := Finset.mem_erase.mp hb'
      by_contra hlt
      by_cases hap : a = p
      · have hpos : (hdr₂ bp).size ≠ 0 := fun h0 =>
          hb.base_lt.ne' ((hfreed.listed.size_eq_zero bp hbS).mp h0)
        have hendb : blockEnd hdr₂ bp = b := by
          rw [blockEnd, hap, hpred₃, hpred₂] at hend'
          have hend'' : p + unit * ((hdr p).size + (hdr₂ bp).size) = b := hend'
          rw [Nat.mul_add] at hend''
          rw [blockEnd]
          omega
        have hlt' : bp < b := by
          rw [← hendb, blockEnd, unit]
          omega
        exact hpb.ne' (hadj bp hbS b hb' hlt' hendb).1
      · rw [blockEnd, hother₃ a hap] at hend'
        exact hap (hadj a ha b hb' (by omega) hend').1
  · have heq : joinLower (joinUpper hdr bp p) bp p = hdr₂ := by
      rw [joinLower, if_neg hlower, hpred]
    rw [heq]
    refine ⟨S', hfreed, hpS, Or.inr ⟨by rw [hpred₂], hgrown⟩, ?_⟩
    intro a ha b hb' hend
    by_contra hlt
    obtain ⟨rfl, rfl⟩ := hadj a ha b hb' (by omega) hend
    apply hlower
    rw [blockEnd, hpred]
    rw [blockEnd, hpred₂] at hend
    exact hend

/-- `free` terminates and adds exactly the freed block to the list. -/
theorem free_spec (h : FreeList base s S) (hb : Apart base s.hdr S bp) (hfuel : S.card ≤ fuel) :
    ∃ s' S', free fuel s (bp + unit) = some s' ∧ FreeList base s' S' ∧
      Freed base s.hdr s'.hdr S S' bp ∧ s'.brk = s.brk ∧
      ((s.hdr bp).size ≤ (s'.hdr s'.freep).size ∨
        (s'.hdr s'.freep).ptr = bp ∧ (s.hdr bp).size ≤ (s'.hdr bp).size) := by
  obtain ⟨p, hp, hsearch, hbtw⟩ := h.search hb hfuel
  obtain ⟨S', hfreed, hpS, hlarge, hgap⟩ := free_lower h.toListed h.gap hb hp hbtw
  refine ⟨{ s with hdr := joinLower (joinUpper s.hdr bp p) bp p, freep := p }, S', ?_,
    ⟨hfreed.listed, hpS, hgap⟩, hfreed, rfl, hlarge⟩
  rw [free, Nat.add_sub_cancel, hsearch]
  rfl

end Xv6.Umalloc
