import Xv6.Vm.Ranges
import Xv6.Vm.Uvm

/-! The pages of an address space: its page-table pages, its user pages and the free list are
different pages of RAM, and what operations take from the one they give to the other. -/
namespace Xv6.Vm

open Lib Lib.Radix

structure Leaf (x : ℕ) : Prop where
  valid : x &&& pteV ≠ 0
  leaf : pteFlags x ≠ pteV

/-- The physical pages of the virtual pages `U`. -/
def data (t : Table 2) (U : Multiset ℕ) : Multiset ℕ := U.map fun v => pte2pa (t.find 0 v)

/-- A table with user pages `U`: with its page-table pages and the free list they are the pages
`A`. -/
structure Space (L : Layout) (m : Kmem) (t : Table 2) (U A : Multiset ℕ) : Prop where
  rep : Rep m t
  total : (m.freelist : Multiset ℕ) + t.labels + data t U = A
  nodup : A.Nodup
  ram : ∀ a ∈ A, L.Ram a
  user : ∀ v ∈ U, v < maxVa / pgSize ∧ Leaf (t.find 0 v)

def SameUser (m m' : Kmem) (t : Table 2) (U : Multiset ℕ) : Prop :=
  ∀ v ∈ U, m'.page (pte2pa (t.find 0 v)) = m.page (pte2pa (t.find 0 v))

def SameOutside (m m' : Kmem) (A : Multiset ℕ) : Prop := ∀ a ∉ A, m'.page a = m.page a

variable {L : Layout} {m m' m'' : Kmem} {t t' : Table 2} {U U' V A B : Multiset ℕ} {v n p a perm : ℕ}

theorem SameOutside.refl (m : Kmem) (A : Multiset ℕ) : SameOutside m m A := fun _ _ => rfl

theorem SameOutside.trans (h : SameOutside m m' A) (h' : SameOutside m' m'' A) :
    SameOutside m m'' A := fun a ha => (h' a ha).trans (h a ha)

theorem SameOutside.mono (h : SameOutside m m' A) (hAB : ∀ a ∈ A, a ∈ B) : SameOutside m m' B :=
  fun a ha => h a fun hm => ha (hAB a hm)

theorem data_add (t : Table 2) (U V : Multiset ℕ) : data t (U + V) = data t U + data t V :=
  Multiset.map_add _ _ _

@[simp] theorem data_zero (t : Table 2) : data t 0 = 0 := rfl

@[simp] theorem data_cons (t : Table 2) (v : ℕ) (U : Multiset ℕ) :
    data t (v ::ₘ U) = pte2pa (t.find 0 v) ::ₘ data t U :=
  Multiset.map_cons _ _ _

theorem data_congr (h : ∀ v ∈ U, t'.find 0 v = t.find 0 v) : data t' U = data t U :=
  Multiset.map_congr rfl fun v hv => by rw [h v hv]

theorem mem_data (h : v ∈ U) : pte2pa (t.find 0 v) ∈ data t U := Multiset.mem_map_of_mem _ h

namespace Space

theorem nodup_parts (h : Space L m t U A) :
    ((m.freelist : Multiset ℕ) + t.labels).Nodup ∧ (data t U).Nodup ∧
      Disjoint ((m.freelist : Multiset ℕ) + t.labels) (data t U) := by
  have hnd := h.nodup
  rw [← h.total] at hnd
  exact Multiset.nodup_add.mp hnd

theorem mem_of_free (h : Space L m t U A) (ha : a ∈ m.freelist) : a ∈ A := by
  rw [← h.total]
  simp [ha]

theorem mem_of_label (h : Space L m t U A) (ha : a ∈ t.labels) : a ∈ A := by
  rw [← h.total]
  simp [ha]

theorem mem_of_data (h : Space L m t U A) (ha : a ∈ data t U) : a ∈ A := by
  rw [← h.total]
  simp [ha]

theorem apart (h : Space L m t U A) : Apart m t := by
  refine ⟨?_, fun a ha => (h.ram a (h.mem_of_free ha)).pageAddr⟩
  rw [add_comm]
  exact h.nodup_parts.1

theorem labels_nodup (h : Space L m t U A) : t.labels.Nodup :=
  Multiset.nodup_of_le (Multiset.le_add_left _ _) h.nodup_parts.1

theorem data_not_label (h : Space L m t U A) (ha : a ∈ data t U) : a ∉ t.labels := fun hl =>
  Multiset.disjoint_left.mp h.nodup_parts.2.2 (Multiset.mem_add.mpr (Or.inr hl)) ha

theorem data_not_free (h : Space L m t U A) (ha : a ∈ data t U) : a ∉ m.freelist := fun hl =>
  Multiset.disjoint_left.mp h.nodup_parts.2.2 (Multiset.mem_add.mpr (Or.inl hl)) ha

theorem card_le (h : Space L m t U A) : A.card ≤ 32768 := by
  have hinj : ∀ a ∈ A, ∀ b ∈ A, a / pgSize = b / pgSize → a = b := fun a ha b hb he => by
    have h1 := (h.ram a ha).aligned
    have h2 := (h.ram b hb).aligned
    rw [pgSize_eq] at *
    omega
  have hnd : (A.map (· / pgSize)).Nodup := Multiset.Nodup.map_on hinj h.nodup
  have hsub : A.map (· / pgSize) ≤ Multiset.map (· + 0x80000) (Multiset.range 32768) := by
    rw [Multiset.le_iff_subset hnd]
    intro x hx
    obtain ⟨a, ha, rfl⟩ := Multiset.mem_map.mp hx
    have hlt := (h.ram a ha).lt
    have hge := L.kernelEnd_ge.trans (h.ram a ha).ge
    unfold physTop kernBase at *
    refine Multiset.mem_map.mpr ⟨a / pgSize - 0x80000, ?_, ?_⟩
    · rw [Multiset.mem_range, pgSize_eq]
      omega
    · rw [pgSize_eq]
      omega
  have hcard := Multiset.card_le_card hsub
  rwa [Multiset.card_map, Multiset.card_map, Multiset.card_range] at hcard

/-- There are fewer user pages than would be needed to reach the trapframe. -/
theorem card_user_le (h : Space L m t U A) : U.card ≤ 32768 := by
  have hcard := h.card_le
  have htotal := congrArg Multiset.card h.total
  simp only [Multiset.card_add, data, Multiset.card_map] at htotal
  omega

theorem user_nodup (h : Space L m t U A) : U.Nodup := Multiset.Nodup.of_map _ h.nodup_parts.2.1

end Space

/-- What unmapping does to the table: the entries in a range are cleared. -/
structure Cleared (t t' : Table 2) (v n : ℕ) : Prop where
  label : t'.label = t.label
  missing : ∀ w, t'.missing w = t.missing w
  find : ∀ w < maxVa / pgSize, t'.find 0 w = if v ≤ w ∧ w < v + n then 0 else t.find 0 w

theorem uvmunmap_range {doFree : Bool} (hmax : v + n ≤ maxVa / pgSize) :
    uvmunmap L t.label (v * pgSize) n doFree =
      uvmunmapLoop L t.label ((v + n) * pgSize) doFree n (v * pgSize) := by
  have hlast : (v * pgSize + n * pgSize) % 2 ^ 64 = (v + n) * pgSize := by
    unfold maxVa at hmax
    rw [pgSize_eq] at *
    omega
  rw [uvmunmap, if_neg (by rw [Nat.mul_mod_left]; exact fun h => h rfl), hlast]

theorem Space.uvmunmap_free (h : Space L m t ((List.range' v n : List ℕ) + U) A)
    (hmax : v + n ≤ maxVa / pgSize) :
    Ensures (fun _ => False) (uvmunmap L t.label (v * pgSize) n true) (fun _ m' => ∃ t',
      Space L m' t' U A ∧ SameOutside m m' A ∧ SameUser m m' t U ∧ Cleared t t' v n) m := by
  have hmem : ∀ w, v ≤ w → w < v + n → w ∈ ((List.range' v n : List ℕ) + U : Multiset ℕ) :=
    fun w hw hw' => Multiset.mem_add.mpr (Or.inl (by
      rw [Multiset.mem_coe, List.mem_range'_1]
      omega))
  have hdisj : ∀ w ∈ U, ¬(v ≤ w ∧ w < v + n) := fun w hw hin => by
    refine Multiset.disjoint_left.mp (Multiset.nodup_add.mp h.user_nodup).2.2 ?_ hw
    rw [Multiset.mem_coe, List.mem_range'_1]
    omega
  rw [uvmunmap_range hmax]
  refine ((uvmunmapLoop_spec (L := L) h.rep h.labels_nodup rfl hmax fun _ w hw hw' _ =>
    h.data_not_label (mem_data (hmem w hw hw'))).weaken ?_).mono ?_
  · rintro _ ⟨w, hw, hw', hp⟩
    have hdiv : w * pgSize / pgSize = w := Nat.mul_div_cancel w (by decide)
    obtain ⟨hlt, hleaf⟩ := h.user w (hmem w hw hw')
    unfold UnmapPanics at hp
    rw [hdiv] at hp
    rcases hp with hp | hp | hp | ⟨-, hp⟩
    · have : maxVa / pgSize ≤ w := Nat.div_le_of_le_mul (by rwa [Nat.mul_comm])
      omega
    · exact hleaf.valid hp
    · exact hleaf.leaf hp
    · exact hp (h.ram _ (h.mem_of_data (mem_data (hmem w hw hw'))))
  · rintro _ m' ⟨t', hr⟩
    have hfind : ∀ w ∈ U, t'.find 0 w = t.find 0 w := fun w hw => by
      have hlt := (h.user w (Multiset.mem_add.mpr (Or.inr hw))).1
      rw [hr.find w hlt, if_neg (hdisj w hw)]
    have hfreed : (freed t v n true : Multiset ℕ) = data t (List.range' v n : List ℕ) := by
      simp [freed, data]
    refine ⟨t', ⟨hr.rep, ?_, h.nodup, h.ram, fun w hw => ?_⟩, fun a ha => ?_, fun w hw => ?_,
      hr.label, hr.missing, hr.find⟩
    · rw [hr.freelist, hr.labels, data_congr hfind, hfreed, ← h.total, data_add]
      abel
    · rw [hfind w hw]
      exact h.user w (Multiset.mem_add.mpr (Or.inr hw))
    · refine hr.frame a (fun hl => ha (h.mem_of_label hl)) fun _ w hw hw' he => ha ?_
      rw [he]
      exact h.mem_of_data (mem_data (hmem w hw hw'))
    · have hwU : w ∈ ((List.range' v n : List ℕ) + U : Multiset ℕ) :=
        Multiset.mem_add.mpr (Or.inr hw)
      have hw' := mem_data (t := t) hwU
      refine hr.frame _ (h.data_not_label hw') fun _ u hu hu' he => hdisj w hw ?_
      have hnd := h.nodup_parts.2.1
      have hinj := Multiset.inj_on_of_nodup_map hnd w hwU u (hmem u hu hu') he
      omega

theorem Space.uvmunmap_keep (h : Space L m t U A) (hv : v < maxVa / pgSize) (hU : v ∉ U)
    (hleaf : Leaf (t.find 0 v)) :
    Ensures (fun _ => False) (uvmunmap L t.label (v * pgSize) 1 false) (fun _ m' => ∃ t',
      Space L m' t' U A ∧ SameOutside m m' A ∧ SameUser m m' t U ∧ Cleared t t' v 1) m := by
  have hmax : v + 1 ≤ maxVa / pgSize := hv
  have hspec := uvmunmapLoop_spec (L := L) h.rep h.labels_nodup rfl hmax
    (fun hc : false = true => (by cases hc))
  rw [uvmunmap_range hmax]
  refine (hspec.weaken ?_).mono ?_
  · rintro _ ⟨w, hw, hw', hp⟩
    obtain rfl : w = v := by omega
    have hdiv : w * pgSize / pgSize = w := Nat.mul_div_cancel w (by decide)
    unfold UnmapPanics at hp
    rw [hdiv] at hp
    rcases hp with hp | hp | hp | ⟨hp, -⟩
    · have : maxVa / pgSize ≤ w := Nat.div_le_of_le_mul (by rwa [Nat.mul_comm])
      omega
    · exact hleaf.valid hp
    · exact hleaf.leaf hp
    · cases hp
  · rintro _ m' ⟨t', hr⟩
    have hfind : ∀ w ∈ U, t'.find 0 w = t.find 0 w := fun w hw => by
      have hne : w ≠ v := fun he => hU (he ▸ hw)
      rw [hr.find w (h.user w hw).1, if_neg (by omega)]
    refine ⟨t', ⟨hr.rep, ?_, h.nodup, h.ram, fun w hw => ?_⟩, fun a ha => ?_, fun w hw => ?_,
      hr.label, hr.missing, hr.find⟩
    · rw [hr.freelist, hr.labels, data_congr hfind, ← h.total]
      simp [freed]
    · rw [hfind w hw]
      exact h.user w hw
    · exact hr.frame a (fun hl => ha (h.mem_of_label hl)) fun hc => by cases hc
    · exact hr.frame _ (h.data_not_label (mem_data hw)) fun hc => by cases hc

end Xv6.Vm
