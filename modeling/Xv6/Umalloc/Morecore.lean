import Xv6.Umalloc.Malloc

/-! What `morecore` adds to the free list, and what a call of `malloc` returns. -/
namespace Xv6.Umalloc

open Lib

/-- A free list that lies below the break. -/
structure Ready (base : ℕ) (s : Heap) (S : Finset ℕ) : Prop extends FreeList base s S where
  under : ∀ a ∈ S, a + unit ≤ s.brk ∧ blockEnd s.hdr a ≤ s.brk
  brk_le : s.brk ≤ heapMax

/-- The list with the memory between the old and the new break, if there is any. -/
structure Extended (base : ℕ) (s s' : Heap) (S S' : Finset ℕ) : Prop where
  ready : Ready base s' S'
  subset : S' ⊆ insert s.brk S
  covered : ∀ x, Covered s'.hdr S' x ↔ Covered s.hdr S x ∨ s.brk ≤ x ∧ x < s'.brk
  frame : ∀ a ∉ insert s.brk S, s'.hdr a = s.hdr a
  brk_le : s.brk ≤ s'.brk

variable {base fuel limit nunits nu : ℕ} {s : Heap} {S : Finset ℕ}

theorem Ready.brk_not_mem (h : Ready base s S) : s.brk ∉ S := by
  intro hmem
  have := (h.under _ hmem).1
  rw [unit] at this
  omega

theorem sbrk_pos {n brk : ℕ} (hpos : 0 < n) (hn : n < 2 ^ 31) (hbrk : brk ≤ heapMax) :
    sbrk limit (BitVec.ofNat 32 n) brk =
      if brk + n ≤ limit then (some brk, brk + n) else (none, brk) := by
  have hint : (BitVec.ofNat 32 n).toInt = n := by
    rw [BitVec.toInt_ofNat']
    exact Int.bmod_eq_of_le (by omega) (by omega)
  have hadd : Proc.addInt brk (BitVec.ofNat 32 n) = brk + n := by
    rw [Proc.addInt, hint]
    rw [heapMax] at hbrk
    omega
  rw [sbrk, hint, if_pos (by omega), hadd]

def withBlock (s : Heap) (nu : ℕ) : Heap :=
  { s with hdr := Function.update s.hdr s.brk ⟨(s.hdr s.brk).ptr, nu⟩, brk := s.brk + nu * unit }

theorem withBlock_hdr {a : ℕ} (ha : a ≠ s.brk) : (withBlock s nu).hdr a = s.hdr a :=
  Function.update_of_ne ha _ _

theorem withBlock_size : ((withBlock s nu).hdr s.brk).size = nu := by
  rw [withBlock]
  simp only [Function.update_self]

theorem Ready.withBlock (h : Ready base s S) (hnu : 0 < nu) (hle : s.brk + nu * unit ≤ heapMax) :
    FreeList base (withBlock s nu) S ∧ Apart base (Umalloc.withBlock s nu).hdr S s.brk := by
  have hnot := h.brk_not_mem
  have heq : ∀ a ∈ S, (Umalloc.withBlock s nu).hdr a = s.hdr a := fun a ha =>
    withBlock_hdr fun hab => hnot (hab ▸ ha)
  have hend : ∀ a ∈ S, blockEnd (Umalloc.withBlock s nu).hdr a = blockEnd s.hdr a := by
    intro a ha
    rw [blockEnd, heq a ha, blockEnd]
  constructor
  · refine ⟨h.toListed.congr heq, h.mem, ?_⟩
    intro a ha b hb hadj
    rw [hend a ha] at hadj
    exact h.gap a ha b hb hadj
  · constructor
    · rw [withBlock_size]
      exact hnu
    · have := (h.under base h.base_mem).1
      rw [unit] at this
      omega
    · intro a ha
      rw [hend a ha]
      exact Or.inl (h.under a ha)
    · rw [blockEnd, withBlock_size, Nat.mul_comm]
      exact hle

theorem Ready.covered_withBlock (h : Ready base s S) (x : ℕ) :
    Covered (Umalloc.withBlock s nu).hdr S x ↔ Covered s.hdr S x := by
  have hend : ∀ a ∈ S, blockEnd (Umalloc.withBlock s nu).hdr a = blockEnd s.hdr a := by
    intro a ha
    rw [blockEnd, withBlock_hdr fun hab => h.brk_not_mem (hab ▸ ha), blockEnd]
  constructor
  · rintro ⟨a, ha, hle, hlt⟩
    exact ⟨a, ha, hle, by rwa [hend a ha] at hlt⟩
  · rintro ⟨a, ha, hle, hlt⟩
    exact ⟨a, ha, hle, by rwa [hend a ha]⟩

theorem Ready.extended {s' : Heap} {S' : Finset ℕ} (h : Ready base s S) (hnu : 0 < nu)
    (hle : s.brk + nu * unit ≤ heapMax) (hlist : FreeList base s' S')
    (hfreed : Freed base (Umalloc.withBlock s nu).hdr s'.hdr S S' s.brk)
    (hbrk : s'.brk = s.brk + nu * unit) : Extended base s s' S S' := by
  have hend : blockEnd (Umalloc.withBlock s nu).hdr s.brk = s'.brk := by
    rw [blockEnd, withBlock_size, hbrk, Nat.mul_comm]
  have hlt : s.brk + unit ≤ s'.brk := by
    rw [hbrk, unit]
    omega
  have hcovered : ∀ x, Covered s'.hdr S' x ↔ Covered s.hdr S x ∨ s.brk ≤ x ∧ x < s'.brk := by
    intro x
    rw [hfreed.covered, h.covered_withBlock, hend]
  have hunder : ∀ x, Covered s'.hdr S' x → x < s'.brk := by
    intro x hx
    rcases (hcovered x).mp hx with ⟨a, ha, -, hlt'⟩ | hx
    · have := (h.under a ha).2
      omega
    · exact hx.2
  refine ⟨⟨hlist, ?_, hbrk ▸ hle⟩, hfreed.subset, hcovered, ?_, by omega⟩
  · intro a ha
    have hunit : a + unit ≤ s'.brk := by
      rcases Finset.mem_insert.mp (hfreed.subset ha) with rfl | haS
      · exact hlt
      · have := (h.under a haS).1
        omega
    refine ⟨hunit, ?_⟩
    by_contra hgt
    have hbyte := hunder (blockEnd s'.hdr a - 1) ⟨a, ha, by omega, by omega⟩
    omega
  · intro a ha
    rw [hfreed.frame a ha, withBlock_hdr]
    exact fun hab => ha (hab ▸ Finset.mem_insert_self _ _)

/-- `morecore` fails without an effect, or puts a block of the requested size on the list, at `freep`
or after it. -/
theorem morecore_spec (h : Ready base s S) (hn : nunits * unit < 2 ^ 31)
    (hlimit : limit ≤ heapMax) (hfuel : S.card ≤ fuel) :
    morecore fuel limit s nunits = .ok none ∧ limit < s.brk + max nunits 4096 * unit ∨
      ∃ s' S', morecore fuel limit s nunits = .ok (some s') ∧ Extended base s s' S S' ∧
        (nunits ≤ (s'.hdr s'.freep).size ∨ nunits ≤ (s'.hdr (s'.hdr s'.freep).ptr).size) := by
  obtain ⟨nu, hnu⟩ : ∃ nu, nu = if nunits < 4096 then 4096 else nunits := ⟨_, rfl⟩
  have hmax : nu = max nunits 4096 := by
    rw [hnu]
    split_ifs <;> omega
  have hge : 4096 ≤ nu ∧ nunits ≤ nu := by omega
  have hbytes : nu * unit < 2 ^ 31 := by
    rw [hnu, unit] at *
    split_ifs <;> omega
  have hpos : 0 < nu * unit := by
    rw [unit]
    omega
  unfold morecore
  simp only [← hnu]
  rw [sbrk_pos hpos hbytes h.brk_le]
  by_cases hroom : s.brk + nu * unit ≤ limit
  · right
    rw [if_pos hroom]
    obtain ⟨hlist, hapart⟩ := h.withBlock (show 0 < nu by omega) (by omega)
    obtain ⟨s', S', hfree, hlist', hfreed, hbrk, hlarge⟩ := free_spec hlist hapart hfuel
    have hbrk' : s'.brk = s.brk + nu * unit := hbrk
    have hmapped : ¬s.brk + unit > (s.brk + nu * unit + 4095) / 4096 * 4096 := by
      rw [unit]
      omega
    refine ⟨s', S', ?_, ?_, ?_⟩
    · simp only [if_neg hmapped]
      have hrun : free fuel { s with
          hdr := Function.update s.hdr s.brk ⟨(s.hdr s.brk).ptr, nu⟩,
          brk := s.brk + nu * unit } (s.brk + unit) = some s' := hfree
      rw [hrun]
    · exact h.extended (by omega) (by omega) hlist' hfreed hbrk'
    · rw [withBlock_size] at hlarge
      rcases hlarge with hl | ⟨hptr, hl⟩
      · exact Or.inl (by omega)
      · exact Or.inr (by rw [hptr]; omega)
  · left
    rw [if_neg hroom, ← hmax]
    exact ⟨rfl, not_le.mp hroom⟩

/-- The block at `q` that a call has taken off the list, which it may have extended. -/
structure Given (base : ℕ) (s s' : Heap) (S S' : Finset ℕ) (q n : ℕ) : Prop where
  ready : Ready base s' S'
  block : Apart base s'.hdr S' q
  size : (s'.hdr q).size = n
  covered : ∀ x, Covered s.hdr S x ∨ s.brk ≤ x ∧ x < s'.brk ↔
    Covered s'.hdr S' x ∨ q ≤ x ∧ x < q + unit * n
  frame : ∀ a ∉ S, ¬Covered s.hdr S a → a < s.brk → s'.hdr a = s.hdr a
  brk_le : s.brk ≤ s'.brk

theorem Extended.refl (h : Ready base s S) : Extended base s s S S := by
  refine ⟨h, Finset.subset_insert _ _, ?_, fun a _ => rfl, le_rfl⟩
  intro x
  constructor
  · exact Or.inl
  · rintro (hx | hx)
    · exact hx
    · omega

theorem Extended.taken {s₁ s' : Heap} {S₁ S' : Finset ℕ} {q : ℕ} (h : Extended base s s₁ S S₁)
    (ht : Taken base s₁ s' S₁ S' q nunits) (hn : 0 < nunits) : Given base s s' S S' q nunits := by
  have hunder : ∀ x, Covered s'.hdr S' x → x < s'.brk := by
    intro x hx
    obtain ⟨a, ha, -, hlt⟩ := (ht.covered x).mpr (Or.inl hx)
    have := (h.ready.under a ha).2
    rw [ht.brk]
    omega
  refine ⟨⟨ht.list, ?_, ht.brk ▸ h.ready.brk_le⟩, ht.block, ht.size, ?_, ?_, ht.brk ▸ h.brk_le⟩
  · intro a ha
    have hunit := (h.ready.under a (ht.subset ha)).1
    refine ⟨ht.brk ▸ hunit, ?_⟩
    by_contra hgt
    have hbyte := hunder (blockEnd s'.hdr a - 1)
      ⟨a, ha, by rw [ht.brk] at hgt; omega, by omega⟩
    omega
  · intro x
    rw [ht.brk, ← h.covered, ht.covered]
  · intro a ha hcov hlt
    have haS : a ∉ insert s.brk S := by
      rw [Finset.mem_insert, not_or]
      exact ⟨hlt.ne, ha⟩
    have hpos : 0 < unit * nunits := Nat.mul_pos unit_pos hn
    have haq : a ≠ q := by
      rintro rfl
      rcases (h.covered a).mp ((ht.covered a).mpr (Or.inr ⟨le_rfl, by omega⟩)) with hc | hc
      · exact hcov hc
      · omega
    rw [ht.frame a (fun h₁ => haS (h.subset h₁)) haq, h.frame a haS]

/-- If the block at `freep` or the one after it is large enough, the loop finds a block. -/
theorem FreeList.mallocLoop_take (h : FreeList base s S) (fuel limit : ℕ) {rounds : ℕ}
    (hr : S.card < rounds)
    (hlarge : nunits ≤ (s.hdr s.freep).size ∨ nunits ≤ (s.hdr (s.hdr s.freep).ptr).size) :
    ∃ prevp ∈ S, nunits ≤ (s.hdr (s.hdr prevp).ptr).size ∧
      mallocLoop fuel limit nunits rounds s s.freep (s.hdr s.freep).ptr =
        .ok (take s nunits prevp (s.hdr prevp).ptr) := by
  rcases hlarge with hlarge | hlarge
  · obtain ⟨prevp, hprev, rounds', hr', hstop, hrun⟩ := h.mallocLoop_search fuel limit nunits hr
    have hsize : nunits ≤ (s.hdr (s.hdr prevp).ptr).size := by
      rcases hstop with hs | hs
      · exact hs
      · rwa [hs.1]
    obtain ⟨rounds', rfl⟩ : ∃ n, rounds' = n + 1 := ⟨rounds' - 1, by omega⟩
    refine ⟨prevp, hprev, hsize, ?_⟩
    rw [hrun, mallocLoop, if_pos hsize]
  · obtain ⟨rounds, rfl⟩ : ∃ n, rounds = n + 1 := ⟨rounds - 1, by omega⟩
    refine ⟨s.freep, h.mem, hlarge, ?_⟩
    rw [mallocLoop, if_pos hlarge]

/-- `malloc` terminates: it returns null and leaves the list alone, if no block is large enough and
`sbrk` fails, or it returns a block that it has taken off the list. -/
theorem mallocLoop_spec (h : Ready base s S) (hpos : 0 < nunits) (hn : nunits * unit < 2 ^ 31)
    (hlimit : limit ≤ heapMax) {rounds : ℕ} (hfuel : S.card ≤ fuel) (hr : 2 * S.card + 2 < rounds) :
    (mallocLoop fuel limit nunits rounds s s.freep (s.hdr s.freep).ptr = .ok (0, s) ∧
        (∀ a ∈ S, (s.hdr a).size < nunits) ∧ limit < s.brk + max nunits 4096 * unit) ∨
      ∃ s' S' q, mallocLoop fuel limit nunits rounds s s.freep (s.hdr s.freep).ptr =
        .ok (q + unit, s') ∧ Given base s s' S S' q nunits := by
  obtain ⟨prevp, hprev, rounds', hr', hstop, hrun⟩ :=
    h.mallocLoop_search fuel limit nunits (show S.card < rounds by omega)
  obtain ⟨rounds', rfl⟩ : ∃ n, rounds' = n + 1 := ⟨rounds' - 1, by omega⟩
  rw [hrun, mallocLoop]
  by_cases hsize : nunits ≤ (s.hdr (s.hdr prevp).ptr).size
  · right
    rw [if_pos hsize]
    obtain ⟨S', q, hq, ht⟩ := take_spec h.toFreeList hprev rfl hpos hsize
    exact ⟨_, S', q, congrArg Except.ok (Prod.ext hq rfl), (Extended.refl h).taken ht hpos⟩
  · obtain ⟨hlast, hsmall⟩ := hstop.resolve_left hsize
    rw [if_neg hsize, if_pos hlast]
    rcases morecore_spec h hn hlimit hfuel with ⟨hnone, hfull⟩ | ⟨s₁, S₁, hsome, hext, hlarge⟩
    · left
      rw [hnone]
      exact ⟨rfl, hsmall, hfull⟩
    · right
      rw [hsome]
      have hcard : S₁.card ≤ S.card + 1 :=
        (Finset.card_le_card hext.subset).trans (Finset.card_insert_le _ _)
      obtain ⟨prevp', hprev', hsize', hrun'⟩ :=
        hext.ready.mallocLoop_take fuel limit (show S₁.card < rounds' by omega) hlarge
      obtain ⟨S', q, hq, ht⟩ := take_spec hext.ready.toFreeList hprev' rfl hpos hsize'
      refine ⟨_, S', q, ?_, hext.taken ht hpos⟩
      simp only [hrun']
      exact congrArg Except.ok (Prod.ext hq rfl)

end Xv6.Umalloc
