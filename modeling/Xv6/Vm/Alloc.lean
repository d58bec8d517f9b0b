import Xv6.Vm.Space

/-! `uvmalloc`: user pages are added one after the other, and taken back if one of them cannot be
had. -/
namespace Xv6.Vm

open Lib Lib.Radix

variable {L : Layout} {m m' m'' : Kmem} {t t' : Table 2} {U A B : Multiset ℕ}
  {v n p a x perm pa : ℕ} {ps : List ℕ} {ok : Bool}

/-! Pages from the free list. -/

theorem Space.congr (h : Space L m t U A) (hf : m'.freelist = m.freelist)
    (hp : ∀ a ∈ t.labels, m'.page a = m.page a) : Space L m' t U A :=
  ⟨h.rep.frame hp, by rw [hf]; exact h.total, h.nodup, h.ram, h.user⟩

theorem Space.kalloc {E : String → Prop} (h : Space L m t U A) : Ensures E kalloc (fun r m' =>
    Took m m' r.toList r.isSome ∧ (∀ a, r ≠ some a → m'.page a = m.page a) ∧
      match r with
      | none => Space L m' t U A
      | some p => ∃ B, A = p ::ₘ B ∧ p ∉ B ∧ Space L m' t U B) m := by
  refine kalloc_spec.mono ?_
  rintro (_ | p) m' ⟨htook, hpage⟩
  · refine ⟨htook, hpage, h.congr ?_ fun a _ => hpage a (by simp)⟩
    simpa using htook.freelist.symm
  · have hfree : m.freelist = p :: m'.freelist := htook.freelist
    have htotal : p ::ₘ ((m'.freelist : Multiset ℕ) + t.labels + data t U) = A := by
      rw [← h.total, hfree, ← Multiset.cons_coe, Multiset.cons_add, Multiset.cons_add]
    have hnd := h.nodup
    rw [← htotal, Multiset.nodup_cons] at hnd
    refine ⟨htook, hpage, _, htotal.symm, hnd.1, ?_, rfl, hnd.2, fun a ha => ?_, h.user⟩
    · refine h.rep.frame fun a ha => hpage a fun he => hnd.1 ?_
      rw [Option.some.inj he]
      simp [ha]
    · exact h.ram a (htotal ▸ Multiset.mem_cons_of_mem ha)

theorem Space.kfree {E : String → Prop} (h : Space L m t U B) (hp : L.Ram p) (hpB : p ∉ B) :
    Ensures E (kfree L p) (fun _ m' => Space L m' t U (p ::ₘ B) ∧ ∀ a ≠ p, m'.page a = m.page a) m := by
  unfold Ensures
  rw [kfree_eq hp]
  refine ⟨⟨?_, ?_, Multiset.nodup_cons.mpr ⟨hpB, h.nodup⟩, fun a ha => ?_, h.user⟩,
    fun a ha => Kmem.page_setPage_of_ne ha⟩
  · exact h.rep.frame fun a ha => Kmem.page_setPage_of_ne fun he => hpB (he ▸ h.mem_of_label ha)
  · show ((p :: m.freelist : List ℕ) : Multiset ℕ) + t.labels + data t U = p ::ₘ B
    rw [← h.total, ← Multiset.cons_coe, Multiset.cons_add, Multiset.cons_add]
  · rcases Multiset.mem_cons.mp ha with rfl | ha
    · exact hp
    · exact h.ram a ha

/-! One page is mapped. -/

theorem mappages_page (hv : v < maxVa / pgSize) :
    mappages t.label (v * pgSize) pgSize pa perm = mapPage t.label (v * pgSize) pa perm := by
  have hlast : (v * pgSize + (pgSize - pgSize)) % 2 ^ 64 = v * pgSize := by
    unfold maxVa at hv
    rw [pgSize_eq] at *
    omega
  rw [mappages, if_neg (by rw [Nat.mul_mod_left]; exact fun h => h rfl), if_neg (by decide),
    if_neg (by decide), hlast, Nat.div_self (by decide), mappagesLoop]
  conv_rhs => rw [← bind_pure (mapPage t.label (v * pgSize) pa perm)]
  congr 1
  funext ok
  cases ok with
  | false => rfl
  | true => simp

theorem PageMapped.total (h : PageMapped m m' t v x ps ok) :
    (m'.freelist : Multiset ℕ) + (mapped t v x ps ok).labels = m.freelist + t.labels := by
  rw [labels_mapped h.le, h.took.freelist, ← Multiset.coe_add]
  abel

theorem find_mapped_of_ne {w : ℕ} (h : PageMapped m m' t v x ps ok) (hv : v < maxVa / pgSize)
    (hw : w < maxVa / pgSize) (hne : w ≠ v) : (mapped t v x ps ok).find 0 w = t.find 0 w := by
  cases ok with
  | false => exact find_mapped_false w
  | true => rw [find_mapped hv hw (h.full.mp rfl).ge, if_neg hne]

theorem Space.mapped (h : Space L m t U A) (hm : PageMapped m m' t v x ps ok)
    (hv : v < maxVa / pgSize) (hU : v ∉ U) : Space L m' (mapped t v x ps ok) U A := by
  have hfind : ∀ w ∈ U, (Vm.mapped t v x ps ok).find 0 w = t.find 0 w := fun w hw =>
    find_mapped_of_ne hm hv (h.user w hw).1 fun he => hU (he ▸ hw)
  refine ⟨hm.rep, ?_, h.nodup, h.ram, fun w hw => ?_⟩
  · rw [hm.total, data_congr hfind, h.total]
  · rw [hfind w hw]
    exact h.user w hw

theorem Space.addUser (h : Space L m t U B) (hv : v < maxVa / pgSize) (hleaf : Leaf (t.find 0 v))
    (hpa : pte2pa (t.find 0 v) = p) (hp : L.Ram p) (hpB : p ∉ B) :
    Space L m t (v ::ₘ U) (p ::ₘ B) := by
  refine ⟨h.rep, ?_, Multiset.nodup_cons.mpr ⟨hpB, h.nodup⟩, fun a ha => ?_, fun w hw => ?_⟩
  · rw [data_cons, hpa, Multiset.add_cons, h.total]
  · rcases Multiset.mem_cons.mp ha with rfl | ha
    · exact hp
    · exact h.ram a ha
  · rcases Multiset.mem_cons.mp hw with rfl | hw
    · exact ⟨hv, hleaf⟩
    · exact h.user w hw

theorem PageMapped.sameOutside (h : PageMapped m m' t v x ps ok) (hs : Space L m t U A) :
    SameOutside m m' A := fun a ha => h.frame a fun hm => ha (by
  rcases Multiset.mem_add.mp hm with hm | hm
  · exact hs.mem_of_label hm
  · exact hs.mem_of_free (by rw [h.took.freelist]; exact List.mem_append_left _ hm))

theorem PageMapped.sameUser (h : PageMapped m m' t v x ps ok) (hs : Space L m t U A) :
    SameUser m m' t U := fun w hw => h.frame _ fun hm => by
  rcases Multiset.mem_add.mp hm with hm | hm
  · exact hs.data_not_label (mem_data hw) hm
  · exact hs.data_not_free (mem_data hw) (by rw [h.took.freelist]; exact List.mem_append_left _ hm)

theorem Space.mappages_page (h : Space L m t U A) (v pa perm : ℕ) (hv : v < maxVa / pgSize)
    (hfree : t.find 0 v &&& pteV = 0) (hpa : pa < 2 ^ 64) (hperm : perm < 1024) :
    Ensures (fun _ => False) (mappages t.label (v * pgSize) pgSize pa perm) (fun ok m' =>
      ∃ ps, PageMapped m m' t v (pa2pte pa ||| perm ||| pteV) ps ok ∧
        Space L m' (Vm.mapped t v (pa2pte pa ||| perm ||| pteV) ps ok) U A) m := by
  have hdiv : v * pgSize / pgSize = v := Nat.mul_div_cancel v (by decide)
  have hU : v ∉ U := fun hU => (h.user v hU).2.valid hfree
  have hspec := mapPage_spec (a := v * pgSize) h.rep h.apart (entry_lt hpa hperm)
  rw [hdiv] at hspec
  rw [Vm.mappages_page hv]
  refine (hspec.weaken ?_).mono ?_
  · rintro _ (he | he)
    · have : maxVa / pgSize ≤ v := Nat.div_le_of_le_mul (by rwa [Nat.mul_comm])
      omega
    · exact he hfree
  · rintro ok m' ⟨-, ps, hm⟩
    exact ⟨ps, hm, h.mapped hm hv hU⟩

theorem leaf_entry (hperm : perm < 1024) (hne : perm ||| pteV ≠ pteV) :
    Leaf (pa2pte pa ||| perm ||| pteV) := by
  have hlt : perm ||| pteV < 1024 := Nat.or_lt_two_pow (n := 10) hperm (by decide)
  rw [Nat.or_assoc]
  refine ⟨?_, ?_⟩
  · rw [pa2pte_or_and hlt (by decide), Nat.and_or_distrib_right]
    exact fun h0 => absurd (Nat.or_eq_zero_iff.mp h0).2 (by decide)
  · rwa [pteFlags_or hlt]

theorem pte2pa_entry (hperm : perm < 1024) (hp : L.Ram p) :
    pte2pa (pa2pte p ||| perm ||| pteV) = p := by
  rw [Nat.or_assoc]
  exact pte2pa_or (Nat.or_lt_two_pow (n := 10) hperm (by decide)) (hp.lt.trans (by decide)) hp.aligned

end Xv6.Vm
