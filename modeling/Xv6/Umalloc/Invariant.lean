import Xv6.Umalloc.Morecore

/-! The calls of `free` and `malloc` keep the free list well formed. -/
namespace Xv6.Umalloc

open Lib

variable {base : ℕ} {s : Heap} {S : Finset ℕ}

theorem start_ready (h0 : s.freep = 0) (hbase : base + unit ≤ s.brk) (hbrk : s.brk ≤ heapMax) :
    Ready base (start base s) {base} := by
  have hhdr : (start base s).hdr base = ⟨base, 0⟩ := by
    rw [start, if_pos h0]
    exact Function.update_self _ _ _
  have hend : blockEnd (start base s).hdr base = base := by
    rw [blockEnd, hhdr, Nat.mul_zero, Nat.add_zero]
  have hbrk' : (start base s).brk = s.brk := by rw [start, if_pos h0]
  have hle : base ≤ s.brk := by
    rw [unit] at hbase
    omega
  constructor
  · constructor
    · constructor
      · apply IsRing.singleton
        rw [hhdr]
      · exact Finset.mem_singleton_self base
      · intro a ha
        exact (Finset.mem_singleton.mp ha).ge
      · intro a ha
        rw [Finset.mem_singleton.mp ha, hhdr]
        exact iff_of_true rfl rfl
      · intro a ha b hb hlt
        rw [Finset.mem_singleton.mp ha, Finset.mem_singleton.mp hb] at hlt
        omega
      · intro a ha
        rw [Finset.mem_singleton.mp ha, hend]
        omega
    · rw [start, if_pos h0]
      exact Finset.mem_singleton_self base
    · intro a ha b hb _
      rw [Finset.mem_singleton.mp ha, Finset.mem_singleton.mp hb]
  · intro a ha
    rw [Finset.mem_singleton.mp ha, hend, hbrk']
    exact ⟨hbase, hle⟩
  · rw [hbrk']
    exact hbrk

/-- `free` adds exactly the freed block to a list that begins with `base`, and `malloc` takes exactly the
returned block off it, also after it has extended the list. Both terminate, and leave such a list.
`malloc` returns null if no block is large enough and `sbrk` fails. -/
theorem freeList_kept (base : ℕ) (s : Heap) (S : Finset ℕ) (h : FreeList base s S) :
    (∀ bp, Apart base s.hdr S bp → ∀ fuel ≥ S.card, ∃ s' S',
      free fuel s (bp + unit) = some s' ∧ FreeList base s' S' ∧ WellFormed s' S' ∧
        ∀ x, Covered s'.hdr S' x ↔ Covered s.hdr S x ∨ bp ≤ x ∧ x < blockEnd s.hdr bp) ∧
    (∀ nunits limit, 0 < nunits → nunits * unit < 2 ^ 31 → limit ≤ heapMax → s.brk ≤ heapMax →
      (∀ a ∈ S, a + unit ≤ s.brk ∧ blockEnd s.hdr a ≤ s.brk) → ∀ fuel > 2 * S.card + 2,
      (mallocLoop fuel limit nunits fuel s s.freep (s.hdr s.freep).ptr = .ok (0, s) ∧
          (∀ a ∈ S, (s.hdr a).size < nunits) ∧ limit < s.brk + max nunits 4096 * unit) ∨
        ∃ s' S' q, mallocLoop fuel limit nunits fuel s s.freep (s.hdr s.freep).ptr =
            .ok (q + unit, s') ∧ FreeList base s' S' ∧ WellFormed s' S' ∧ s.brk ≤ s'.brk ∧
          (∀ x, Covered s.hdr S x ∨ s.brk ≤ x ∧ x < s'.brk ↔
            Covered s'.hdr S' x ∨ q ≤ x ∧ x < q + unit * nunits) ∧
          ∀ x, q ≤ x → x < q + unit * nunits → ¬Covered s'.hdr S' x) := by
  constructor
  · intro bp hb fuel hfuel
    obtain ⟨s', S', hfree, hlist, hfreed, -, -⟩ := free_spec h hb hfuel
    exact ⟨s', S', hfree, hlist, hlist.wellFormed, hfreed.covered⟩
  · intro nunits limit hpos hn hlimit hbrk hunder fuel hfuel
    rcases mallocLoop_spec ⟨h, hunder, hbrk⟩ hpos hn hlimit (show S.card ≤ fuel by omega) hfuel with
      hnull | ⟨s', S', q, hrun, hgiven⟩
    · exact Or.inl hnull
    · refine Or.inr ⟨s', S', q, hrun, hgiven.ready.toFreeList, hgiven.ready.wellFormed,
        hgiven.brk_le, hgiven.covered, ?_⟩
      rintro x hle hlt ⟨a, ha, hax, hxa⟩
      have hend : blockEnd s'.hdr q = q + unit * nunits := by rw [blockEnd, hgiven.size]
      have hapart := hgiven.block.apart a ha
      omega

/-- Three free blocks besides `base` at 16, and a block of one unit at 96 between two of them. -/
def fourBlocks : Heap where
  hdr a := if a = 16 then ⟨64, 0⟩ else if a = 64 then ⟨112, 2⟩ else if a = 96 then ⟨0, 1⟩
    else if a = 112 then ⟨400, 4⟩ else if a = 400 then ⟨16, 3⟩ else ⟨0, 0⟩
  freep := 112
  brk := 4096

theorem fourBlocks_freeList : FreeList 16 fourBlocks {16, 64, 112, 400} where
  ring := by unfold IsRing Follows; decide
  base_mem := by decide
  base_le := by decide
  size_eq_zero := by decide
  apart := by decide
  below := by decide
  mem := by decide
  gap := by decide

/-- `free` of the block at 96 joins both neighbours, and `malloc` of two units splits the block at 400. -/
theorem freeList_kept_split : (∃ s' S', free 4 fourBlocks 112 = some s' ∧ FreeList 16 s' S' ∧
      s'.hdr 64 = ⟨400, 7⟩ ∧ ∀ x, Covered s'.hdr S' x ↔
        Covered fourBlocks.hdr {16, 64, 112, 400} x ∨ 96 ≤ x ∧ x < 112) ∧
    ∃ s' S', mallocLoop 11 (2 ^ 27) 2 11 fourBlocks 112 400 = .ok (432, s') ∧ FreeList 16 s' S' ∧
      s'.hdr 400 = ⟨16, 1⟩ ∧ ∀ x, 416 ≤ x → x < 448 → ¬Covered s'.hdr S' x := by
  have hkept := freeList_kept 16 fourBlocks {16, 64, 112, 400} fourBlocks_freeList
  constructor
  · have hapart : Apart 16 fourBlocks.hdr {16, 64, 112, 400} 96 :=
      ⟨by decide, by decide, by decide, by decide⟩
    obtain ⟨s', S', hfree, hlist, -, hcov⟩ := hkept.1 96 hapart 4 (by decide)
    have hjoin : (free 4 fourBlocks 112).map (fun s => s.hdr 64) = some ⟨400, 7⟩ := rfl
    rw [show (112 : ℕ) = 96 + unit from rfl, hfree] at hjoin
    exact ⟨s', S', hfree, hlist, Option.some.inj hjoin, hcov⟩
  · have hrun : (mallocLoop 11 (2 ^ 27) 2 11 fourBlocks 112 400).map (fun r => (r.1, r.2.hdr 400)) =
        .ok (432, ⟨16, 1⟩) := rfl
    rcases hkept.2 2 (2 ^ 27) (by decide) (by decide) (by decide) (by decide) (by decide) 11 (by decide)
      with ⟨hnull, -⟩ | ⟨s', S', q, hres, hlist, -, -, -, hout⟩
    · rw [show mallocLoop 11 (2 ^ 27) 2 11 fourBlocks 112 400 = _ from hnull] at hrun
      cases hrun
    · rw [show mallocLoop 11 (2 ^ 27) 2 11 fourBlocks 112 400 = _ from hres] at hrun
      obtain ⟨hq, hhdr⟩ := Prod.mk.inj (Except.ok.inj hrun)
      obtain rfl : q = 416 := Nat.add_right_cancel hq
      exact ⟨s', S', hres, hlist, hhdr, hout⟩

end Xv6.Umalloc
