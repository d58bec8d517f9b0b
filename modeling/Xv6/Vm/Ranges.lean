import Xv6.Vm.PageOps

/-! The loops of `mappages` and `uvmunmap` over a range of pages. -/
namespace Xv6.Vm

open Lib Lib.Radix

variable {L : Layout} {m m' : Kmem} {t : Table 2} {v n pa perm last : ℕ} {ok doFree : Bool}

/-- `mappages` has returned after it mapped the first `j` of `n` pages. -/
structure RangeMapped (m m' : Kmem) (t t' : Table 2) (v n pa perm j : ℕ) (ps : List ℕ) (ok : Bool) :
    Prop where
  done : ok = true → j = n
  short : ok = false → j < n
  lt : v + j ≤ maxVa / pgSize
  took : Took m m' ps ok
  rep : Rep m' t'
  label : t'.label = t.label
  labels : t'.labels = t.labels + ps
  find : ∀ w < maxVa / pgSize, t'.find 0 w =
    if v ≤ w ∧ w < v + j then pa2pte (pa + (w - v) * pgSize) ||| perm ||| pteV else t.find 0 w

theorem Apart.mapped {x : ℕ} {ps : List ℕ} (h : Apart m t) (hm : PageMapped m m' t v x ps ok) :
    Apart m' (mapped t v x ps ok) := by
  refine ⟨?_, fun a ha => h.free a ?_⟩
  · have hnd := h.nodup
    rw [hm.took.freelist, ← Multiset.coe_add, ← add_assoc] at hnd
    rwa [labels_mapped hm.le]
  · rw [hm.took.freelist]
    exact List.mem_append_right _ ha

theorem entry_lt (hpa : pa < 2 ^ 64) (hperm : perm < 1024) :
    pa2pte pa ||| perm ||| pteV < 2 ^ 64 := by
  rw [Nat.or_assoc]
  exact pa2pte_or_lt (Nat.or_lt_two_pow (n := 10) hperm (by decide)) hpa

/-- The rounds of `mappages` enter a first part of the range. -/
theorem mappagesLoop_spec (h : Rep m t) (hap : Apart m t) (hperm : perm < 1024) (hn : 0 < n)
    (hwrap : n ≤ 2 ^ 52) (hpa : pa < 2 ^ 56 + v * pgSize)
    (hlast : last = (v + n - 1) * pgSize % 2 ^ 64) :
    Ensures (fun _ => maxVa / pgSize < v + n ∨ ∃ w, v ≤ w ∧ w < v + n ∧ t.find 0 w &&& pteV ≠ 0)
      (mappagesLoop t.label last perm n (v * pgSize) pa)
      (fun ok m' => ∃ j ps t', RangeMapped m m' t t' v n pa perm j ps ok) m := by
  induction n generalizing m t v pa with
  | zero => omega
  | succ n ih =>
    have hdiv : v * pgSize / pgSize = v := Nat.mul_div_cancel v (by decide)
    rw [mappagesLoop]
    by_cases hva : maxVa ≤ v * pgSize
    · have : maxVa / pgSize ≤ v := Nat.div_le_of_le_mul (by rwa [Nat.mul_comm])
      unfold mapPage walk
      rw [if_pos hva]
      exact Or.inl (by omega)
    have hlt64 : pa < 2 ^ 64 := by
      unfold maxVa at hva
      omega
    have hpage := mapPage_spec (a := v * pgSize) h hap (entry_lt hlt64 hperm)
    rw [hdiv] at hpage
    refine (hpage.weaken fun _ he => ?_).bind ?_
    · rcases he with he | he
      · exact absurd he hva
      · exact Or.inr ⟨v, le_rfl, by omega, he⟩
    rintro ok m₁ ⟨hva', ps, hm⟩
    have hv : v < maxVa / pgSize := by
      have := div_pgSize_lt hva'
      rwa [hdiv] at this
    cases ok with
    | false =>
      refine ⟨0, ps, mapped t v _ ps false, fun hc => (by cases hc), fun _ => Nat.succ_pos n,
        hv.le, hm.took, hm.rep, label_mapped, labels_mapped hm.le, fun w _ => ?_⟩
      rw [if_neg (by omega)]
      exact find_mapped_false w
    | true =>
      set t₁ := mapped t v (pa2pte pa ||| perm ||| pteV) ps true with ht₁
      have hfind : ∀ w < maxVa / pgSize, t₁.find 0 w =
          if w = v then pa2pte pa ||| perm ||| pteV else t.find 0 w := fun w hw =>
        find_mapped hv hw (hm.full.mp rfl).ge
      simp only [if_true]
      by_cases hend : v * pgSize = last
      · have hn0 : n = 0 := by
          rw [hlast, pgSize_eq] at hend
          unfold maxVa at hv
          rw [pgSize_eq] at hv
          omega
        subst hn0
        rw [if_pos hend]
        refine ⟨1, ps, t₁, fun _ => rfl, fun hc => (by cases hc), hv, hm.took, hm.rep, label_mapped,
          labels_mapped hm.le, fun w hw => ?_⟩
        rw [hfind w hw]
        by_cases hwv : w = v
        · subst hwv
          rw [if_pos rfl, if_pos (by omega), Nat.sub_self, Nat.zero_mul, Nat.add_zero]
        · rw [if_neg hwv, if_neg (by omega)]
      · have hn0 : 0 < n := by
          rcases Nat.eq_zero_or_pos n with h0 | h0
          · subst h0
            rw [hlast, pgSize_eq] at hend
            unfold maxVa at hv
            rw [pgSize_eq] at hv
            omega
          · exact h0
        rw [if_neg hend]
        have hnext : (v * pgSize + pgSize) % 2 ^ 64 = (v + 1) * pgSize := by
          unfold maxVa at hv
          rw [pgSize_eq] at *
          omega
        have hpanext : (pa + pgSize) % 2 ^ 64 = pa + pgSize := by
          unfold maxVa at hva
          rw [pgSize_eq] at *
          omega
        have hlast' : last = (v + 1 + n - 1) * pgSize % 2 ^ 64 := by
          rw [hlast, show v + (n + 1) - 1 = v + 1 + n - 1 by omega]
        have hrec := ih hm.rep (hap.mapped hm) hn0 (by omega)
          (show pa + pgSize < 2 ^ 56 + (v + 1) * pgSize by rw [Nat.add_mul]; omega) hlast'
        rw [hnext, hpanext, show t.label = t₁.label from label_mapped.symm]
        refine (hrec.weaken fun _ he => ?_).mono ?_
        · rcases he with he | ⟨w, hw, hw', hV⟩
          · exact Or.inl (by omega)
          · by_cases hlt : w < maxVa / pgSize
            · rw [hfind w hlt, if_neg (by omega)] at hV
              exact Or.inr ⟨w, by omega, by omega, hV⟩
            · exact Or.inl (by omega)
        · rintro ok m' ⟨j, qs, t', hr⟩
          refine ⟨j + 1, ps ++ qs, t', fun hc => ?_, fun hc => ?_, ?_, hm.took.trans hr.took, hr.rep,
            hr.label.trans label_mapped, ?_, fun w hw => ?_⟩
          · rw [hr.done hc]
          · exact Nat.succ_lt_succ (hr.short hc)
          · have := hr.lt
            omega
          · rw [hr.labels, labels_mapped hm.le, add_assoc, Multiset.coe_add]
          · rw [hr.find w hw]
            by_cases hwv : w = v
            · subst hwv
              rw [if_neg (by omega), hfind w hw, if_pos rfl, if_pos (by omega), Nat.sub_self,
                Nat.zero_mul, Nat.add_zero]
            · by_cases hin : v + 1 ≤ w ∧ w < v + 1 + j
              · have hoff : pa + pgSize + (w - (v + 1)) * pgSize = pa + (w - v) * pgSize := by
                  rw [pgSize_eq]
                  omega
                rw [if_pos hin, if_pos (by omega), hoff]
              · rw [if_neg hin, hfind w hw, if_neg hwv, if_neg (by omega)]

/-- The physical pages that `uvmunmap` frees. -/
def freed (t : Table 2) (v n : ℕ) (doFree : Bool) : List ℕ :=
  if doFree then (List.range' v n).map fun w => pte2pa (t.find 0 w) else []

/-- `uvmunmap` of `n` pages from `v` on has returned. -/
structure RangeUnmapped (m m' : Kmem) (t t' : Table 2) (v n : ℕ) (doFree : Bool) : Prop where
  rep : Rep m' t'
  label : t'.label = t.label
  labels : t'.labels = t.labels
  missing : ∀ w, t'.missing w = t.missing w
  find : ∀ w < maxVa / pgSize, t'.find 0 w = if v ≤ w ∧ w < v + n then 0 else t.find 0 w
  freelist : (m'.freelist : Multiset ℕ) = m.freelist + freed t v n doFree
  frame : ∀ b ∉ t.labels, (doFree = true → ∀ w, v ≤ w → w < v + n → b ≠ pte2pa (t.find 0 w)) →
    m'.page b = m.page b

theorem uvmunmapLoop_spec (h : Rep m t) (hnd : t.labels.Nodup)
    (hlast : last = (v + n) * pgSize) (hmax : v + n ≤ maxVa / pgSize)
    (hfree : doFree = true → ∀ w, v ≤ w → w < v + n → t.find 0 w &&& pteV ≠ 0 →
      pte2pa (t.find 0 w) ∉ t.labels) :
    Ensures (fun _ => ∃ w, v ≤ w ∧ w < v + n ∧ UnmapPanics L t (w * pgSize) doFree)
      (uvmunmapLoop L t.label last doFree n (v * pgSize))
      (fun _ m' => ∃ t', RangeUnmapped m m' t t' v n doFree) m := by
  induction n generalizing m t v with
  | zero =>
    refine ⟨t, h, rfl, rfl, fun _ => rfl, fun w _ => ?_, ?_, fun b _ _ => rfl⟩
    · rw [if_neg (by omega)]
    · cases doFree <;> simp [freed]
  | succ n ih =>
    have hdiv : v * pgSize / pgSize = v := Nat.mul_div_cancel v (by decide)
    rw [uvmunmapLoop, if_pos (by rw [hlast, pgSize_eq]; omega)]
    have hpage := unmapPage_spec (L := L) (a := v * pgSize) h hnd
      (fun hd => by rw [hdiv]; exact hfree hd v le_rfl (by omega))
    rw [hdiv] at hpage
    refine (hpage.weaken fun _ he => ⟨v, le_rfl, by omega, he⟩).bind ?_
    rintro _ m₁ hm
    set t₁ : Table 2 := t.set v 0 with ht₁
    have hfind : ∀ w < maxVa / pgSize, t₁.find 0 w = if w = v then 0 else t.find 0 w :=
      fun w hw => find_set_page hm.lt hw hm.missing
    have hlab : t₁.labels = t.labels := Tree.labels_set t
    have hnext : (v * pgSize + pgSize) % 2 ^ 64 = (v + 1) * pgSize := by
      unfold maxVa at hmax
      rw [pgSize_eq] at *
      omega
    have hother : ∀ w, v + 1 ≤ w → w < v + 1 + n → t₁.find 0 w = t.find 0 w := fun w hw hw' => by
      rw [hfind w (by omega), if_neg (by omega)]
    have hrec := ih hm.rep (by rwa [hlab]) (show last = (v + 1 + n) * pgSize by rw [hlast]; ring)
      (by omega) fun hd w hw hw' => by
        rw [hother w hw hw', hlab]
        exact hfree hd w (by omega) (by omega)
    rw [hnext, show t.label = t₁.label from (Tree.label_set t).symm]
    refine (hrec.weaken ?_).mono ?_
    · rintro _ ⟨w, hw, hw', hp⟩
      refine ⟨w, by omega, by omega, ?_⟩
      have hdivw : w * pgSize / pgSize = w := Nat.mul_div_cancel w (by decide)
      have hsame : (t.set v 0).find 0 w = t.find 0 w := hother w hw hw'
      simp only [UnmapPanics, hdivw, hsame] at hp ⊢
      exact hp
    · rintro _ m' ⟨t', hr⟩
      refine ⟨t', hr.rep, hr.label.trans (Tree.label_set t), hr.labels.trans hlab,
        fun w => (hr.missing w).trans (Tree.missing_set t), fun w hw => ?_, ?_, fun b hb hne => ?_⟩
      · rw [hr.find w hw]
        by_cases hwv : w = v
        · subst hwv
          rw [if_neg (by omega), hfind w hw, if_pos rfl, if_pos (by omega)]
        · by_cases hin : v + 1 ≤ w ∧ w < v + 1 + n
          · rw [if_pos hin, if_pos (by omega)]
          · rw [if_neg hin, hfind w hw, if_neg hwv, if_neg (by omega)]
      · rw [hr.freelist, hm.freelist]
        cases doFree with
        | false => simp [freed]
        | true =>
          have hmap : freed t₁ (v + 1) n true = freed t (v + 1) n true := by
            apply List.map_congr_left
            intro w hw
            rw [List.mem_range'_1] at hw
            rw [hother w (by omega) (by omega)]
          have hcons : freed t v (n + 1) true = pte2pa (t.find 0 v) :: freed t (v + 1) n true := rfl
          rw [hmap, hcons, if_pos rfl, ← Multiset.cons_coe, ← Multiset.cons_coe, Multiset.cons_add,
            Multiset.add_cons]
      · rw [hr.frame b (by rwa [hlab]) fun hd w hw hw' => ?_, hm.frame b hb fun hd => ?_]
        · exact hne hd v le_rfl (by omega)
        · rw [hother w hw hw']
          exact hne hd w (by omega) (by omega)

/-- `mappages` enters the range, or a first part of it and reports a failure. -/
theorem mappages_spec {va size : ℕ} (h : Rep m t) (hap : Apart m t) (hperm : perm < 1024)
    (hpa : pa < 2 ^ 56) (hal : va % pgSize = 0) (hsize : size < 2 ^ 64) :
    Ensures (fun _ => size % pgSize ≠ 0 ∨ size = 0 ∨ maxVa / pgSize < va / pgSize + size / pgSize ∨
        ∃ w, va / pgSize ≤ w ∧ w < va / pgSize + size / pgSize ∧ t.find 0 w &&& pteV ≠ 0)
      (mappages t.label va size pa perm)
      (fun ok m' => ∃ j ps t',
        RangeMapped m m' t t' (va / pgSize) (size / pgSize) pa perm j ps ok) m := by
  unfold mappages
  rw [if_neg (by omega)]
  by_cases hs : size % pgSize ≠ 0
  · rw [if_pos hs]
    exact Or.inl hs
  by_cases h0 : size = 0
  · rw [if_neg hs, if_pos h0]
    exact Or.inr (Or.inl h0)
  rw [if_neg hs, if_neg h0]
  have hva : va / pgSize * pgSize = va := Nat.div_mul_cancel (Nat.dvd_of_mod_eq_zero hal)
  have hsum : va + (size - pgSize) = (va / pgSize + size / pgSize - 1) * pgSize := by
    rw [pgSize_eq] at *
    omega
  have hloop := mappagesLoop_spec (v := va / pgSize) (n := size / pgSize) h hap hperm
    (by rw [pgSize_eq] at *; omega) (by rw [pgSize_eq]; omega) (Nat.lt_add_right _ hpa)
    (congrArg (· % 2 ^ 64) hsum)
  rw [hva] at hloop
  exact hloop.weaken fun _ he => Or.inr (Or.inr he)

end Xv6.Vm
