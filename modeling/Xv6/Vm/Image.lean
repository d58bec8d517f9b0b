import Xv6.Vm.Alloc

/-! What a process sees of its memory, and the address spaces in which it sees it. -/
namespace Xv6.Vm

open Lib Lib.Radix

structure Image where
  flags : ℕ → ℕ
  page : ℕ → Page

/-- How many pages `sz` bytes take. -/
def numPages (sz : ℕ) : ℕ := (sz + (pgSize - 1)) / pgSize

def trapframePage : ℕ := trapframeVa / pgSize

def trampolinePage : ℕ := trampolineVa / pgSize

/-- The address space with the `n` user pages of `img`, for a process whose trapframe is at `tf`.
Nothing else is mapped. -/
structure Uvm (L : Layout) (m : Kmem) (t : Table 2) (n : ℕ) (img : Image) (tf : ℕ)
    (A : Multiset ℕ) : Prop where
  space : Space L m t (Multiset.range n) A
  flags : ∀ v < n, pteFlags (t.find 0 v) = img.flags v
  page : ∀ v < n, m.page (pte2pa (t.find 0 v)) = img.page v
  rest : ∀ v, n ≤ v → v < trapframePage → t.find 0 v = 0
  upper : ∀ v, maxVa / pgSize ≤ v → v < 2 * (maxVa / pgSize) → t.missing v = 2
  trapframe : t.find 0 trapframePage = pa2pte tf ||| (pteR ||| pteW) ||| pteV
  trampoline : t.find 0 trampolinePage = pa2pte L.trampoline ||| (pteR ||| pteX) ||| pteV

/-- A table at the same place with the same first entries. -/
structure Keeps (t t' : Table 2) (k : ℕ) : Prop where
  label : t'.label = t.label
  find : ∀ v < k, t'.find 0 v = t.find 0 v

variable {L : Layout} {m m' : Kmem} {t t' t'' : Table 2} {img img' : Image} {A : Multiset ℕ}
  {v w n k p tf sz : ℕ}

theorem Keeps.refl (t : Table 2) (k : ℕ) : Keeps t t k := ⟨rfl, fun _ _ => rfl⟩

theorem Keeps.trans (h : Keeps t t' k) (h' : Keeps t' t'' k) : Keeps t t'' k :=
  ⟨h'.label.trans h.label, fun v hv => (h'.find v hv).trans (h.find v hv)⟩

theorem maxVa_div : maxVa / pgSize = 2 ^ 26 := by decide

theorem trapframePage_eq : trapframePage = 2 ^ 26 - 2 := by decide

theorem trampolinePage_eq : trampolinePage = 2 ^ 26 - 1 := by decide

theorem numPages_zero : numPages 0 = 0 := by decide

theorem numPages_mul (n : ℕ) : numPages (n * pgSize) = n := by
  rw [numPages, pgSize_eq]
  omega

theorem numPages_mono {a b : ℕ} (h : a ≤ b) : numPages a ≤ numPages b := by
  unfold numPages
  rw [pgSize_eq]
  omega

theorem lt_numPages : v < numPages sz ↔ v * pgSize < sz := by
  rw [numPages, pgSize_eq]
  omega

theorem pgRoundUp_eq (h : sz + pgSize ≤ 2 ^ 64) : pgRoundUp sz = numPages sz * pgSize := by
  rw [pgRoundUp, numPages, Nat.mod_eq_of_lt]
  rw [pgSize_eq] at *
  omega

theorem range_add_range' (h : k ≤ n) :
    ((List.range' k (n - k) : List ℕ) : Multiset ℕ) + Multiset.range k = Multiset.range n := by
  obtain ⟨d, rfl⟩ := Nat.exists_eq_add_of_le h
  rw [Multiset.range, Multiset.range, Multiset.coe_add, Multiset.coe_eq_coe, Nat.add_sub_cancel_left,
    List.range_eq_range', List.range_eq_range']
  have hcat := List.range'_append_1 (s := 0) (m := k) (n := d)
  rw [Nat.zero_add] at hcat
  rw [← hcat]
  exact List.perm_append_comm

namespace Uvm

/-- RAM is too small for the user pages to reach the trapframe. -/
theorem le (h : Uvm L m t n img tf A) : n ≤ 32768 := by
  have := h.space.card_user_le
  rwa [Multiset.card_range] at this

theorem sz_le (h : Uvm L m t (numPages sz) img tf A) : sz ≤ 32768 * pgSize := by
  have hle := h.le
  by_contra hc
  have := lt_numPages.mpr (not_le.mp hc)
  omega

theorem leaf (h : Uvm L m t n img tf A) (hv : v < n) : Leaf (t.find 0 v) :=
  (h.space.user v (Multiset.mem_range.mpr hv)).2

theorem mem_data (h : v < n) : pte2pa (t.find 0 v) ∈ data t (Multiset.range n) :=
  Vm.mem_data (Multiset.mem_range.mpr h)

theorem congr (h : Uvm L m t n img tf A) (hflags : ∀ v < n, img'.flags v = img.flags v)
    (hpage : ∀ v < n, img'.page v = img.page v) : Uvm L m t n img' tf A :=
  ⟨h.space, fun v hv => (h.flags v hv).trans (hflags v hv).symm,
    fun v hv => (h.page v hv).trans (hpage v hv).symm, h.rest, h.upper, h.trapframe, h.trampoline⟩

theorem frame (h : Uvm L m t n img tf A) (hf : m'.freelist = m.freelist)
    (hp : ∀ a ∈ A, m'.page a = m.page a) : Uvm L m' t n img tf A :=
  ⟨h.space.congr hf fun a ha => hp a (h.space.mem_of_label ha), h.flags,
    fun v hv => by rw [hp _ (h.space.mem_of_data (mem_data hv)), h.page v hv],
    h.rest, h.upper, h.trapframe, h.trampoline⟩

theorem cleared (h : Uvm L m t n img tf A) (hk : k ≤ n) (hs : Space L m' t' (Multiset.range k) A)
    (hu : SameUser m m' t (Multiset.range k)) (hc : Cleared t t' k (n - k)) :
    Uvm L m' t' k img tf A := by
  have hle := h.le
  have hmax := maxVa_div
  have htf := trapframePage_eq
  have htr := trampolinePage_eq
  have hold : ∀ v < maxVa / pgSize, ¬(k ≤ v ∧ v < k + (n - k)) → t'.find 0 v = t.find 0 v :=
    fun v hv hn => by rw [hc.find v hv, if_neg hn]
  refine ⟨hs, fun v hv => ?_, fun v hv => ?_, fun v hv hv' => ?_, fun v hv hv' => ?_, ?_, ?_⟩
  · rw [hold v (by omega) (by omega)]
    exact h.flags v (by omega)
  · rw [hold v (by omega) (by omega), hu v (Multiset.mem_range.mpr hv)]
    exact h.page v (by omega)
  · rw [hc.find v (by omega)]
    split_ifs with hin
    · rfl
    · exact h.rest v (by omega) hv'
  · rw [hc.missing]
    exact h.upper v hv hv'
  · rw [hold _ (by omega) (by omega)]
    exact h.trapframe
  · rw [hold _ (by omega) (by omega)]
    exact h.trampoline

theorem uvmunmap_from (h : Uvm L m t n img tf A) (hk : k ≤ n) :
    Ensures (fun _ => False) (uvmunmap L t.label (k * pgSize) (n - k) true) (fun _ m' => ∃ t',
      Keeps t t' k ∧ Uvm L m' t' k img tf A ∧ SameOutside m m' A) m := by
  have hle := h.le
  have hspace := h.space
  rw [← range_add_range' hk] at hspace
  refine (hspace.uvmunmap_free (by rw [maxVa_div]; omega)).mono ?_
  rintro _ m' ⟨t', hs, hout, hu, hc⟩
  refine ⟨t', ⟨hc.label, fun v hv => ?_⟩, h.cleared hk hs hu hc, hout⟩
  rw [hc.find v (by rw [maxVa_div]; omega), if_neg (by omega)]

end Uvm

theorem viaInt_of_lt (h : n < 2 ^ 31) : viaInt n = n := by
  have hmod : n % 2 ^ 32 = n := Nat.mod_eq_of_lt (by omega)
  rw [viaInt, hmod, if_pos h]

/-- The pages from the new size on are free, and the others unchanged. -/
theorem uvmdealloc_spec {oldsz : ℕ} (newsz : ℕ) (h : Uvm L m t (numPages oldsz) img tf A) :
    Ensures (fun _ => False) (uvmdealloc L t.label oldsz newsz) (fun r m' => r = min oldsz newsz ∧
      ∃ t', Keeps t t' (numPages (min oldsz newsz)) ∧
        Uvm L m' t' (numPages (min oldsz newsz)) img tf A ∧ SameOutside m m' A) m := by
  have hle := h.le
  have hsz := h.sz_le
  rw [pgSize_eq] at hsz
  unfold uvmdealloc
  by_cases hlt : oldsz ≤ newsz
  · rw [if_pos hlt, Nat.min_eq_left hlt]
    exact ⟨rfl, t, Keeps.refl t _, h, SameOutside.refl m A⟩
  rw [if_neg hlt, Nat.min_eq_right (by omega), pgRoundUp_eq (by rw [pgSize_eq]; omega),
    pgRoundUp_eq (by rw [pgSize_eq]; omega)]
  have hmono : numPages newsz ≤ numPages oldsz := numPages_mono (by omega)
  by_cases hpages : numPages newsz * pgSize < numPages oldsz * pgSize
  · rw [if_pos hpages, ← Nat.sub_mul, Nat.mul_div_cancel _ (by decide), viaInt_of_lt (by omega)]
    refine (h.uvmunmap_from hmono).bind ?_
    intro _ m' hm
    exact ⟨rfl, hm⟩
  · have heq : numPages newsz = numPages oldsz := by
      rw [pgSize_eq] at hpages
      omega
    rw [if_neg hpages]
    refine ⟨rfl, t, Keeps.refl t _, ?_, SameOutside.refl m A⟩
    rw [heq]
    exact h

end Xv6.Vm
