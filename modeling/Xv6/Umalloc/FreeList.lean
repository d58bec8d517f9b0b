import Xv6.Lib.CyclicOrder

/-! The free list of `user/umalloc.c`: blocks in the order of their addresses, linked to a circle that
begins with the empty block `base`. -/
namespace Xv6.Umalloc

open Lib

/-- `union header`; the size counts units of `sizeof(Header)` bytes. -/
structure Header where
  ptr : ℕ
  size : ℕ

def unit : ℕ := 16

/-- The list is used below this address: a block there has a size that fits in a `uint`. -/
def heapMax : ℕ := 2 ^ 36

def blockEnd (hdr : ℕ → Header) (a : ℕ) : ℕ := a + unit * (hdr a).size

/-- The byte `x` is in a listed block. -/
def Covered (hdr : ℕ → Header) (S : Finset ℕ) (x : ℕ) : Prop := ∃ a ∈ S, a ≤ x ∧ x < blockEnd hdr a

/-- The blocks are linked in a circle and do not overlap. `base` comes first and is the only empty
one. -/
structure Listed (base : ℕ) (hdr : ℕ → Header) (S : Finset ℕ) : Prop where
  ring : IsRing S fun a => (hdr a).ptr
  base_mem : base ∈ S
  base_le : ∀ a ∈ S, base ≤ a
  size_eq_zero : ∀ a ∈ S, (hdr a).size = 0 ↔ a = base
  apart : ∀ a ∈ S, ∀ b ∈ S, a < b → a + unit ≤ b ∧ blockEnd hdr a ≤ b
  below : ∀ a ∈ S, blockEnd hdr a ≤ heapMax

structure Apart (base : ℕ) (hdr : ℕ → Header) (S : Finset ℕ) (bp : ℕ) : Prop where
  size_pos : 0 < (hdr bp).size
  base_lt : base < bp
  apart : ∀ a ∈ S, a + unit ≤ bp ∧ blockEnd hdr a ≤ bp ∨ blockEnd hdr bp ≤ a
  below : blockEnd hdr bp ≤ heapMax

variable {base bp p : ℕ} {hdr hdr' : ℕ → Header} {S : Finset ℕ}

theorem unit_pos : 0 < unit := by decide

theorem Apart.not_mem (h : Apart base hdr S bp) : bp ∉ S := by
  intro hmem
  have hsize := h.size_pos
  have hapart := h.apart bp hmem
  rw [blockEnd, unit] at hapart
  omega

theorem Listed.follows (h : Listed base hdr S) (hp : p ∈ S) : Follows S p (hdr p).ptr := h.ring p hp

theorem Listed.congr (h : Listed base hdr S) (heq : ∀ a ∈ S, hdr' a = hdr a) :
    Listed base hdr' S := by
  constructor
  · apply h.ring.congr
    intro a ha
    rw [heq a ha]
  · exact h.base_mem
  · exact h.base_le
  · intro a ha
    rw [heq a ha]
    exact h.size_eq_zero a ha
  · intro a ha b hb hlt
    rw [blockEnd, heq a ha]
    exact h.apart a ha b hb hlt
  · intro a ha
    rw [blockEnd, heq a ha]
    exact h.below a ha

theorem Listed.predecessor (h : Listed base hdr S) (hb : Apart base hdr S bp) (hp : p ∈ S)
    (hbtw : Between p (hdr p).ptr bp) :
    p < bp ∧ (bp < (hdr p).ptr ∨ (hdr p).ptr ≤ p) ∧
      ∀ a ∈ S, a ≤ p ∨ (p < (hdr p).ptr ∧ (hdr p).ptr ≤ a) := by
  obtain ⟨hn, hS⟩ := h.follows hp
  have hbase := hS base h.base_mem
  have hlow := hb.base_lt
  have hle := h.base_le _ hn
  refine ⟨?_, ?_, ?_⟩
  · unfold Between at *
    omega
  · unfold Between at *
    omega
  · intro a ha
    have := hS a ha
    unfold Between at *
    omega

theorem Listed.link (h : Listed base hdr S) (hb : Apart base hdr S bp) (hp : p ∈ S)
    (hbtw : Between p (hdr p).ptr bp) (hp' : hdr' p = ⟨bp, (hdr p).size⟩)
    (hbp' : hdr' bp = ⟨(hdr p).ptr, (hdr bp).size⟩) (hother : ∀ a ∈ S, a ≠ p → hdr' a = hdr a) :
    Listed base hdr' (insert bp S) := by
  have hnot := hb.not_mem
  have hsize : ∀ a ∈ insert bp S, (hdr' a).size = (hdr a).size := by
    intro a ha
    rcases Finset.mem_insert.mp ha with rfl | ha
    · rw [hbp']
    · by_cases hap : a = p
      · rw [hap, hp']
      · rw [hother a ha hap]
  have hend : ∀ a ∈ insert bp S, blockEnd hdr' a = blockEnd hdr a := by
    intro a ha
    rw [blockEnd, hsize a ha, blockEnd]
  constructor
  · apply IsRing.insert h.ring hp hnot hbtw
    · rw [hp']
    · rw [hbp']
    · intro a ha hap
      rw [hother a ha hap]
  · exact Finset.mem_insert_of_mem h.base_mem
  · intro a ha
    rcases Finset.mem_insert.mp ha with rfl | ha
    · exact hb.base_lt.le
    · exact h.base_le a ha
  · intro a ha
    rw [hsize a ha]
    rcases Finset.mem_insert.mp ha with rfl | ha
    · exact iff_of_false hb.size_pos.ne' hb.base_lt.ne'
    · exact h.size_eq_zero a ha
  · intro a ha b hb' hlt
    rw [hend a ha]
    rcases Finset.mem_insert.mp ha with rfl | haS
    · rcases Finset.mem_insert.mp hb' with rfl | hbS
      · omega
      · have hapart := hb.apart b hbS
        have hpos := hb.size_pos
        unfold blockEnd unit at *
        omega
    · rcases Finset.mem_insert.mp hb' with rfl | hbS
      · have hapart := hb.apart a haS
        have hpos := hb.size_pos
        unfold blockEnd unit at *
        omega
      · exact h.apart a haS b hbS hlt
  · intro a ha
    rw [hend a ha]
    rcases Finset.mem_insert.mp ha with rfl | ha
    · exact hb.below
    · exact h.below a ha

theorem Listed.merge {a b : ℕ} (h : Listed base hdr S) (ha : a ∈ S) (hab : (hdr a).ptr = b)
    (hadj : blockEnd hdr a = b) (hbase : a ≠ base)
    (ha' : hdr' a = ⟨(hdr b).ptr, (hdr a).size + (hdr b).size⟩)
    (hother : ∀ c ∈ S, c ≠ a → c ≠ b → hdr' c = hdr c) :
    Listed base hdr' (S.erase b) ∧ ∀ x, Covered hdr' (S.erase b) x ↔ Covered hdr S x := by
  obtain ⟨hb, hS⟩ := h.follows ha
  rw [hab] at hb hS
  have hpos : 0 < (hdr a).size := Nat.pos_of_ne_zero fun h0 => hbase ((h.size_eq_zero a ha).mp h0)
  have hadj' : a + unit * (hdr a).size = b := hadj
  have hlt : a < b := by
    rw [← hadj', unit]
    omega
  have hend : blockEnd hdr' a = blockEnd hdr b := by
    rw [blockEnd, ha', blockEnd]
    show a + unit * ((hdr a).size + (hdr b).size) = b + unit * (hdr b).size
    rw [Nat.mul_add]
    omega
  have hends : ∀ c ∈ S, c ≠ a → c ≠ b → blockEnd hdr' c = blockEnd hdr c := by
    intro c hc hca hcb
    rw [blockEnd, hother c hc hca hcb, blockEnd]
  have hbb : b ≤ blockEnd hdr b := Nat.le_add_right _ _
  constructor
  · constructor
    · have hring : IsRing (S.erase (hdr a).ptr) fun c => (hdr' c).ptr := IsRing.erase h.ring ha
        (show (hdr a).ptr ≠ a by rw [hab]; exact hlt.ne')
        (show (hdr' a).ptr = (hdr (hdr a).ptr).ptr by rw [ha', hab])
        (fun c hc hca hcb => by
          rw [hab] at hcb
          show (hdr' c).ptr = (hdr c).ptr
          rw [hother c hc hca hcb])
      rwa [hab] at hring
    · have hle := h.base_le a ha
      exact Finset.mem_erase.mpr ⟨by omega, h.base_mem⟩
    · exact fun c hc => h.base_le c (Finset.mem_of_mem_erase hc)
    · intro c hc
      obtain ⟨hcb, hc⟩ := Finset.mem_erase.mp hc
      by_cases hca : c = a
      · rw [hca, ha']
        exact iff_of_false (show (hdr a).size + (hdr b).size ≠ 0 by omega) hbase
      · rw [hother c hc hca hcb]
        exact h.size_eq_zero c hc
    · intro c hc d hd hcd
      obtain ⟨hcb, hc⟩ := Finset.mem_erase.mp hc
      obtain ⟨hdb, hd⟩ := Finset.mem_erase.mp hd
      by_cases hca : c = a
      · have hbtw := hS d hd
        have hbd : b < d := by
          unfold Between at hbtw
          omega
        have hapart := h.apart b hb d hd hbd
        rw [hca, hend]
        exact ⟨by omega, hapart.2⟩
      · rw [hends c hc hca hcb]
        exact h.apart c hc d hd hcd
    · intro c hc
      obtain ⟨hcb, hc⟩ := Finset.mem_erase.mp hc
      by_cases hca : c = a
      · rw [hca, hend]
        exact h.below b hb
      · rw [hends c hc hca hcb]
        exact h.below c hc
  · intro x
    constructor
    · rintro ⟨c, hc, hle, hlt'⟩
      obtain ⟨hcb, hc⟩ := Finset.mem_erase.mp hc
      by_cases hca : c = a
      · rw [hca, hend] at hlt'
        rw [hca] at hle
        rcases Nat.lt_or_ge x b with hx | hx
        · exact ⟨a, ha, hle, by omega⟩
        · exact ⟨b, hb, hx, hlt'⟩
      · exact ⟨c, hc, hle, by rwa [hends c hc hca hcb] at hlt'⟩
    · rintro ⟨c, hc, hle, hlt'⟩
      by_cases hca : c = a
      · exact ⟨a, Finset.mem_erase.mpr ⟨hlt.ne, ha⟩, by omega, by rw [hend]; rw [hca] at hlt'; omega⟩
      · by_cases hcb : c = b
        · exact ⟨a, Finset.mem_erase.mpr ⟨hlt.ne, ha⟩, by omega, by rw [hend]; rwa [hcb] at hlt'⟩
        · exact ⟨c, Finset.mem_erase.mpr ⟨hcb, hc⟩, hle, by rwa [hends c hc hca hcb]⟩

theorem Listed.unlink {a : ℕ} (h : Listed base hdr S) (hp : p ∈ S) (ha : (hdr p).ptr = a) (hap : a ≠ p)
    (hbase : a ≠ base) (hp' : hdr' p = ⟨(hdr a).ptr, (hdr p).size⟩)
    (hother : ∀ c ∈ S, c ≠ p → hdr' c = hdr c) : Listed base hdr' (S.erase a) := by
  have hsize : ∀ c ∈ S, (hdr' c).size = (hdr c).size := by
    intro c hc
    by_cases hcp : c = p
    · rw [hcp, hp']
    · rw [hother c hc hcp]
  have hmem : ∀ {c}, c ∈ S.erase a → c ∈ S := fun hc => Finset.mem_of_mem_erase hc
  constructor
  · have hring : IsRing (S.erase (hdr p).ptr) fun c => (hdr' c).ptr := IsRing.erase h.ring hp
      (show (hdr p).ptr ≠ p by rwa [ha])
      (show (hdr' p).ptr = (hdr (hdr p).ptr).ptr by rw [hp', ha])
      (fun c hc hcp _ => by
        show (hdr' c).ptr = (hdr c).ptr
        rw [hother c hc hcp])
    rwa [ha] at hring
  · exact Finset.mem_erase.mpr ⟨hbase.symm, h.base_mem⟩
  · exact fun c hc => h.base_le c (hmem hc)
  · intro c hc
    rw [hsize c (hmem hc)]
    exact h.size_eq_zero c (hmem hc)
  · intro c hc d hd hlt
    rw [blockEnd, hsize c (hmem hc)]
    exact h.apart c (hmem hc) d (hmem hd) hlt
  · intro c hc
    rw [blockEnd, hsize c (hmem hc)]
    exact h.below c (hmem hc)

theorem Listed.shrink {a n : ℕ} (h : Listed base hdr S) (hn : 0 < n)
    (hle : n ≤ (hdr a).size) (ha' : hdr' a = ⟨(hdr a).ptr, n⟩)
    (hother : ∀ c ∈ S, c ≠ a → hdr' c = hdr c) : Listed base hdr' S := by
  have hend : ∀ c ∈ S, blockEnd hdr' c ≤ blockEnd hdr c := by
    intro c hc
    by_cases hca : c = a
    · rw [hca, blockEnd, ha', blockEnd]
      exact Nat.add_le_add_left (Nat.mul_le_mul_left unit hle) a
    · rw [blockEnd, hother c hc hca, blockEnd]
  constructor
  · apply h.ring.congr
    intro c hc
    by_cases hca : c = a
    · rw [hca, ha']
    · rw [hother c hc hca]
  · exact h.base_mem
  · exact h.base_le
  · intro c hc
    by_cases hca : c = a
    · rw [hca] at hc
      have hpos : a ≠ base := fun heq => by
        have := (h.size_eq_zero a hc).mpr heq
        omega
      rw [hca, ha']
      exact iff_of_false hn.ne' hpos
    · rw [hother c hc hca]
      exact h.size_eq_zero c hc
  · intro c hc d hd hlt
    obtain ⟨hunit, hle'⟩ := h.apart c hc d hd hlt
    exact ⟨hunit, (hend c hc).trans hle'⟩
  · exact fun c hc => (hend c hc).trans (h.below c hc)

theorem le_or_le_of_disjoint {a b c d : ℕ} (hab : a < b) (hcd : c < d)
    (h : ∀ x, a ≤ x → x < b → c ≤ x → x < d → False) : b ≤ c ∨ d ≤ a := by
  by_contra hno
  rw [not_or] at hno
  exact h (max a c) (by omega) (by omega) (by omega) (by omega)

theorem Apart.lt_blockEnd (h : Apart base hdr S bp) : bp + unit ≤ blockEnd hdr bp := by
  have hpos := h.size_pos
  unfold blockEnd unit
  omega

theorem Apart.not_covered (h : Apart base hdr S bp) {x : ℕ} (hle : bp ≤ x)
    (hlt : x < blockEnd hdr bp) : ¬Covered hdr S x := by
  rintro ⟨a, ha, hax, hxa⟩
  have hapart := h.apart a ha
  omega

theorem Listed.apart_of_not_covered (h : Listed base hdr S) (hsize : 0 < (hdr bp).size)
    (hbase : base + unit ≤ bp) (hbelow : blockEnd hdr bp ≤ heapMax)
    (hcov : ∀ x, bp ≤ x → x < blockEnd hdr bp → ¬Covered hdr S x) : Apart base hdr S bp := by
  have hlt : bp < blockEnd hdr bp := by
    unfold blockEnd unit
    omega
  refine ⟨hsize, by unfold unit at hbase; omega, ?_, hbelow⟩
  intro a ha
  by_cases hab : a = base
  · left
    have hzero := (h.size_eq_zero a ha).mpr hab
    rw [blockEnd, hzero, hab]
    unfold unit at hbase ⊢
    omega
  · have hpos : 0 < (hdr a).size :=
      Nat.pos_of_ne_zero fun h0 => hab ((h.size_eq_zero a ha).mp h0)
    have hunit : a + unit ≤ blockEnd hdr a := by
      unfold blockEnd unit
      omega
    have halt : a < blockEnd hdr a := by
      unfold unit at hunit
      omega
    rcases le_or_le_of_disjoint halt hlt fun x h₁ h₂ h₃ h₄ => hcov x h₃ h₄ ⟨a, ha, h₁, h₂⟩ with
      hle | hle
    · exact Or.inl ⟨by omega, hle⟩
    · exact Or.inr hle

end Xv6.Umalloc
