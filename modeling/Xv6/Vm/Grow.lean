import Xv6.Vm.Image

/-! `uvmalloc`: user pages are added one after the other, and taken back if one of them cannot be
had. -/
namespace Xv6.Vm

open Lib Lib.Radix

def Image.set (img : Image) (v flags : ℕ) (c : Page) : Image :=
  ⟨Function.update img.flags v flags, Function.update img.page v c⟩

/-- The pages from `n` on are the zero pages that `uvmalloc` adds. -/
def Image.fill (img : Image) (n xperm : ℕ) : Image where
  flags v := if v < n then img.flags v else pteR ||| pteU ||| xperm ||| pteV
  page v := if v < n then img.page v else fun _ => 0

/-- How many pages `n` user pages take in a new address space, with their page-table pages. -/
def imagePages (n : ℕ) : ℕ := if n = 0 then 0 else n + (n + 511) / 512 + 1

/-- The page-table pages are those that the first `n` pages need. -/
def Dense (t : Table 2) (n : ℕ) : Prop :=
  ∀ w, n ≤ w → w < 2 ^ 18 →
    t.missing w = if n = 0 then 2 else if (n - 1) / 512 = w / 512 then 0 else 1

variable {L : Layout} {m m' : Kmem} {t t' : Table 2} {img img' : Image} {A B : Multiset ℕ}
  {v w n k p tf f xperm newsz fuel : ℕ} {ps : List ℕ} {ok : Bool}

@[simp] theorem Image.flags_set_self {c : Page} : (img.set v f c).flags v = f :=
  Function.update_self ..

@[simp] theorem Image.page_set_self {c : Page} : (img.set v f c).page v = c :=
  Function.update_self ..

theorem Image.flags_set_of_ne {c : Page} (h : w ≠ v) : (img.set v f c).flags w = img.flags w :=
  Function.update_of_ne h ..

theorem Image.page_set_of_ne {c : Page} (h : w ≠ v) : (img.set v f c).page w = img.page w :=
  Function.update_of_ne h ..

theorem Image.fill_set : (img.set v (pteR ||| pteU ||| xperm ||| pteV) fun _ => 0).fill (v + 1) xperm =
    img.fill v xperm := by
  unfold fill
  congr 1 <;> funext u
  · by_cases huv : u = v
    · rw [huv, if_pos (by omega), if_neg (by omega), flags_set_self]
    · rw [flags_set_of_ne huv]
      exact if_congr (by omega) rfl rfl
  · by_cases huv : u = v
    · rw [huv, if_pos (by omega), if_neg (by omega), page_set_self]
    · rw [page_set_of_ne huv]
      exact if_congr (by omega) rfl rfl

theorem imagePages_mono (h : k ≤ n) : imagePages k ≤ imagePages n := by
  unfold imagePages
  split_ifs <;> omega

theorem apart_eq (hv : v < 2 ^ 18) (hw : w < 2 ^ 18) :
    apart fanout 2 v w = if v / 512 = w / 512 then 0 else 1 := by
  have hdigit : ∀ l u, (digit fanout l u).val = u / 512 ^ l % 512 := fun l u => by
    rw [digit, Fin.val_ofNat, fanout_eq]
  have htop : digit fanout 2 v = digit fanout 2 w := by
    apply Fin.ext
    rw [hdigit, hdigit]
    omega
  have hlow : digit fanout 1 v = digit fanout 1 w ↔ v / 512 = w / 512 := by
    rw [← Fin.val_inj, hdigit, hdigit]
    omega
  rw [apart, if_pos htop, apart, apart]
  simp only [hlow]

theorem Dense.missing (h : Dense t v) (hv : v < 2 ^ 18) :
    imagePages (v + 1) = imagePages v + 1 + t.missing v := by
  rw [h v le_rfl hv]
  unfold imagePages
  split_ifs <;> omega

theorem Dense.mapped {x : ℕ} (h : Dense t v) (hv : v < 2 ^ 18) (hfull : t.missing v ≤ ps.length) :
    Dense (mapped t v x ps true) (v + 1) := by
  intro w hw hlt
  rw [missing_mapped hfull, h w (by omega) hlt, apart_eq hv hlt, if_neg (Nat.succ_ne_zero v),
    Nat.add_sub_cancel]
  split_ifs <;> omega

theorem missing_mapped_upper {x : ℕ} (hv : v < maxVa / pgSize) (hw : maxVa / pgSize ≤ w)
    (hw' : w < 2 * (maxVa / pgSize)) : (mapped t v x ps ok).missing w = t.missing w := by
  have hne : digit fanout 2 w ≠ digit fanout 2 v := fun he => by
    have := congrArg Fin.val he
    simp only [digit, Fin.val_ofNat, fanout_eq] at this
    rw [maxVa_div] at *
    omega
  unfold mapped
  split_ifs
  · rw [Tree.missing_set, Tree.missing_grow_of_ne hne]
  · rw [Tree.missing_grow_of_ne hne]

namespace Uvm

theorem kalloc {E : String → Prop} (h : Uvm L m t v img tf A) : Ensures E kalloc (fun r m' =>
    Took m m' r.toList r.isSome ∧ SameOutside m m' A ∧
      match r with
      | none => Uvm L m' t v img tf A
      | some p => ∃ B, A = p ::ₘ B ∧ p ∉ B ∧ L.Ram p ∧ Uvm L m' t v img tf B) m := by
  refine h.space.kalloc.mono ?_
  rintro (_ | p) m' ⟨htook, hpage, hspace⟩
  · have hpage' : ∀ a, m'.page a = m.page a := fun a => hpage a (by simp)
    have hfree : m'.freelist = m.freelist := by simpa using htook.freelist.symm
    exact ⟨htook, fun a _ => hpage' a, h.frame hfree fun a _ => hpage' a⟩
  · obtain ⟨B, rfl, hpB, hs⟩ := hspace
    have hsame : ∀ a, a ≠ p → m'.page a = m.page a := fun a ha =>
      hpage a fun he => ha (Option.some.inj he).symm
    refine ⟨htook, fun a ha => hsame a fun he => ha (he ▸ Multiset.mem_cons_self a B), B, rfl, hpB,
      h.space.ram p (Multiset.mem_cons_self p B), hs, h.flags, fun u hu => ?_, h.rest, h.upper,
      h.trapframe, h.trampoline⟩
    rw [hsame _ fun he => hpB (he ▸ hs.mem_of_data (mem_data hu))]
    exact h.page u hu

theorem kfree {E : String → Prop} (h : Uvm L m t v img tf B) (hp : L.Ram p) (hpB : p ∉ B) :
    Ensures E (kfree L p) (fun _ m' => Uvm L m' t v img tf (p ::ₘ B) ∧ SameOutside m m' (p ::ₘ B)) m := by
  refine (h.space.kfree hp hpB).mono ?_
  rintro _ m' ⟨hs, hpage⟩
  refine ⟨⟨hs, h.flags, fun u hu => ?_, h.rest, h.upper, h.trapframe, h.trampoline⟩,
    fun a ha => ?_⟩
  · rw [hpage _ fun he => hpB (he ▸ h.space.mem_of_data (mem_data hu))]
    exact h.page u hu
  · exact hpage a fun he => ha (he ▸ Multiset.mem_cons_self a B)

theorem setPage (h : Uvm L m t v img tf B) (hpB : p ∉ B) (c : Page) :
    Uvm L (m.setPage p c) t v img tf B :=
  h.frame rfl fun _ ha => Kmem.page_setPage_of_ne fun he => hpB (he ▸ ha)

theorem next_free (h : Uvm L m t v img tf A) : t.find 0 v &&& pteV = 0 := by
  have hle := h.le
  have htf := trapframePage_eq
  rw [h.rest v le_rfl (by omega), Nat.zero_and]

theorem mapped_false {x : ℕ} (h : Uvm L m t v img tf B) (hm : PageMapped m m' t w x ps false)
    (hw : w < maxVa / pgSize)
    (hs : Space L m' (mapped t w x ps false) (Multiset.range v) B) :
    Uvm L m' (mapped t w x ps false) v img tf B := by
  have hfind : ∀ u, (mapped t w x ps false).find 0 u = t.find 0 u := find_mapped_false
  refine ⟨hs, fun u hu => ?_, fun u hu => ?_, fun u hu hu' => ?_, fun u hu hu' => ?_, ?_, ?_⟩
  · rw [hfind]
    exact h.flags u hu
  · rw [hfind, hm.sameUser h.space u (Multiset.mem_range.mpr hu)]
    exact h.page u hu
  · rw [hfind]
    exact h.rest u hu hu'
  · rw [missing_mapped_upper hw hu hu']
    exact h.upper u hu hu'
  · rw [hfind]
    exact h.trapframe
  · rw [hfind]
    exact h.trampoline

theorem mapped_true (h : Uvm L m t v img tf B)
    (hm : PageMapped m m' t v (pa2pte p ||| f ||| pteV) ps true)
    (hs : Space L m' (mapped t v (pa2pte p ||| f ||| pteV) ps true) (Multiset.range v) B)
    (hf : f < 1024) (hne : f ||| pteV ≠ pteV) (hp : L.Ram p) (hpB : p ∉ B) :
    Uvm L m' (mapped t v (pa2pte p ||| f ||| pteV) ps true) (v + 1)
      (img.set v (f ||| pteV) (m.page p)) tf (p ::ₘ B) := by
  set x := pa2pte p ||| f ||| pteV with hx
  have hle := h.le
  have hmax := maxVa_div
  have htf := trapframePage_eq
  have htr := trampolinePage_eq
  have hflags : f ||| pteV < 1024 := Nat.or_lt_two_pow (n := 10) hf (by decide)
  have hself : (mapped t v x ps true).find 0 v = x := by
    rw [find_mapped (by omega) (by omega) (hm.full.mp rfl).ge, if_pos rfl]
  have hother : ∀ u, u < maxVa / pgSize → u ≠ v → (mapped t v x ps true).find 0 u = t.find 0 u :=
    fun u hu hne => find_mapped_of_ne hm (by omega) hu hne
  have hpa : pte2pa x = p := pte2pa_entry hf hp
  have hkeep : m'.page p = m.page p := hm.sameOutside h.space p hpB
  refine ⟨?_, fun u hu => ?_, fun u hu => ?_, fun u hu hu' => ?_, fun u hu hu' => ?_, ?_, ?_⟩
  · rw [Multiset.range_succ]
    refine hs.addUser (by omega) ?_ ?_ hp hpB
    · rw [hself]
      exact leaf_entry hf hne
    · rw [hself, hpa]
  · by_cases huv : u = v
    · rw [huv, hself, hx, Nat.or_assoc, pteFlags_or hflags, Image.flags_set_self]
    · rw [hother u (by omega) huv, Image.flags_set_of_ne huv]
      exact h.flags u (by omega)
  · by_cases huv : u = v
    · rw [huv, hself, hpa, hkeep, Image.page_set_self]
    · rw [hother u (by omega) huv, hm.sameUser h.space u (Multiset.mem_range.mpr (by omega)),
        Image.page_set_of_ne huv]
      exact h.page u (by omega)
  · rw [hother u (by omega) (by omega)]
    exact h.rest u (by omega) hu'
  · rw [missing_mapped_upper (by omega) hu hu']
    exact h.upper u hu hu'
  · rw [hother _ (by omega) (by omega)]
    exact h.trapframe
  · rw [hother _ (by omega) (by omega)]
    exact h.trampoline

end Uvm

/-- What `uvmalloc` does with the memory: all the pages are there, or none. -/
def Grown (L : Layout) (m m' : Kmem) (t : Table 2) (k v n : ℕ) (img : Image) (xperm tf : ℕ)
    (A : Multiset ℕ) (ok : Bool) : Prop :=
  SameOutside m m' A ∧ ∃ t' : Table 2, Keeps t t' k ∧
    if ok then
      Uvm L m' t' n (img.fill v xperm) tf A ∧
        ∃ ps, Took m m' ps true ∧
          (Dense t v → Dense t' n ∧ imagePages v + ps.length = imagePages n)
    else
      Uvm L m' t' k img tf A ∧ (Dense t v → ∀ j, imagePages n ≤ imagePages v + j → ¬m.Supplies j)

theorem Grown.cons {m₁ : Kmem}
    (h : Grown L m₁ m' t' k (v + 1) n (img.set v (pteR ||| pteU ||| xperm ||| pteV) fun _ => 0) xperm
      tf A ok)
    (ht : Keeps t t' k) (hk : k ≤ v) (htook : Took m m₁ ps true) (hout : SameOutside m m₁ A)
    (hd : Dense t v → Dense t' (v + 1) ∧ imagePages v + ps.length = imagePages (v + 1)) :
    Grown L m m' t k v n img xperm tf A ok := by
  obtain ⟨hout', t'', hl, h⟩ := h
  refine ⟨hout.trans hout', t'', ht.trans hl, ?_⟩
  cases ok with
  | true =>
    obtain ⟨hu, qs, hq, hdense⟩ := h
    refine ⟨Image.fill_set ▸ hu, _, htook.trans hq, fun h0 => ?_⟩
    obtain ⟨h1, hlen⟩ := hd h0
    obtain ⟨h2, hlen'⟩ := hdense h1
    refine ⟨h2, ?_⟩
    rw [List.length_append]
    omega
  | false =>
    obtain ⟨hu, hsup⟩ := h
    refine ⟨hu.congr ?_ ?_, fun h0 j hj hsupp => ?_⟩
    · intro u hu
      exact (Image.flags_set_of_ne (by omega)).symm
    · intro u hu
      exact (Image.page_set_of_ne (by omega)).symm
    · obtain ⟨h1, hlen⟩ := hd h0
      exact hsup h1 _ (by omega) (hsupp.after htook)

theorem perm_ne (xperm : ℕ) : pteR ||| pteU ||| xperm ||| pteV ≠ pteV := fun he => by
  have hbit : Nat.testBit (pteR ||| pteU) 1 = true := by decide
  have hV : Nat.testBit pteV 1 = false := by decide
  have := congrArg (Nat.testBit · 1) he
  simp only [Nat.testBit_or (pteR ||| pteU ||| xperm), Nat.testBit_or (pteR ||| pteU), hbit, hV,
    Bool.true_or] at this
  exact absurd this (by decide)

theorem perm_lt (hx : xperm < 1024) : pteR ||| pteU ||| xperm < 1024 :=
  Nat.or_lt_two_pow (n := 10) (by decide) hx

theorem uvmdealloc_grown {E : String → Prop} {m₁ : Kmem} {n : ℕ} (h : Uvm L m₁ t' v img tf A)
    (ht : Keeps t t' k) (hk : k ≤ v) (hout : SameOutside m m₁ A) (hnew : newsz ≠ 0)
    (hsup : Dense t v → ∀ j, imagePages n ≤ imagePages v + j → ¬m.Supplies j) :
    Ensures E (do
        let _ ← uvmdealloc L t.label (v * pgSize) (k * pgSize)
        return 0) (fun r m' =>
      (r = newsz ∧ Grown L m m' t k v n img xperm tf A true) ∨
        (r = 0 ∧ newsz ≠ 0 ∧ Grown L m m' t k v n img xperm tf A false)) m₁ := by
  have hmin : min (v * pgSize) (k * pgSize) = k * pgSize := Nat.min_eq_right (Nat.mul_le_mul_right _ hk)
  have hspec := uvmdealloc_spec (k * pgSize) ((numPages_mul v).symm ▸ h)
  rw [hmin, numPages_mul, ht.label] at hspec
  refine (hspec.weaken fun _ hc => hc.elim).bind ?_
  rintro _ m' ⟨-, t'', hl, hu, hout'⟩
  exact Or.inr ⟨rfl, hnew, hout.trans hout', t'', ht.trans hl, hu, hsup⟩

/-- Each round adds one page, or all are given back. -/
theorem uvmallocLoop_spec (fuel newsz : ℕ) (h : Uvm L m t v img tf A) (hk : k ≤ v) (hx : xperm < 1024)
    (hfuel : numPages newsz ≤ v + fuel) :
    Ensures (fun _ => False)
      (uvmallocLoop L t.label (k * pgSize) newsz xperm fuel (v * pgSize)) (fun r m' =>
        (r = newsz ∧ Grown L m m' t k v (max v (numPages newsz)) img xperm tf A true) ∨
        (r = 0 ∧ newsz ≠ 0 ∧ Grown L m m' t k v (max v (numPages newsz)) img xperm tf A false)) m := by
  have hdone : ∀ m t v img, Uvm L m t v img tf A → numPages newsz ≤ v →
      Grown L m m t k v (max v (numPages newsz)) img xperm tf A true := by
    intro m t v img h hle
    rw [Nat.max_eq_left hle]
    refine ⟨SameOutside.refl m A, t, Keeps.refl t k, h.congr (fun u hu => if_pos hu) (fun u hu => if_pos hu), [],
      Took.refl m, fun hd => ⟨hd, rfl⟩⟩
  induction fuel generalizing m t v img with
  | zero => exact Or.inl ⟨rfl, hdone m t v img h hfuel⟩
  | succ fuel ih =>
    rw [uvmallocLoop]
    by_cases ha : v * pgSize < newsz
    swap
    · rw [if_neg ha]
      exact Or.inl ⟨rfl, hdone m t v img h (not_lt.mp fun hlt => ha (lt_numPages.mp hlt))⟩
    have hlt : v < numPages newsz := lt_numPages.mpr ha
    have hnew : newsz ≠ 0 := by omega
    have hle := h.le
    rw [if_pos ha, Nat.max_eq_right hlt.le]
    have hmono : imagePages (v + 1) ≤ imagePages (numPages newsz) := imagePages_mono hlt
    refine h.kalloc.bind ?_
    rintro (_ | p) m₁ ⟨htook, hout, h₁⟩
    · refine uvmdealloc_grown h₁ (Keeps.refl t k) hk hout hnew fun hd j hj => htook.not_supplies ?_
      have := hd.missing (by omega)
      simp only [Option.toList_none, List.length_nil]
      omega
    · obtain ⟨B, rfl, hpB, hp, h₁⟩ := h₁
      apply ensures_memset
      have h₂ := h₁.setPage hpB (fun _ => 0)
      have hout₂ : SameOutside m (m₁.setPage p fun _ => 0) (p ::ₘ B) := hout.trans fun a ha =>
        Kmem.page_setPage_of_ne fun he => ha (he ▸ Multiset.mem_cons_self a B)
      have htook₂ : Took m (m₁.setPage p fun _ => 0) [p] true := htook.setPage _ _
      have hmap := h₂.space.mappages_page v p (pteR ||| pteU ||| xperm) (by rw [maxVa_div]; omega)
        h₂.next_free (hp.lt.trans (by decide)) (perm_lt hx)
      refine hmap.bind ?_
      rintro ok m₃ ⟨ps, hm, hs⟩
      have htook₃ := htook₂.trans hm.took
      have hout₃ : SameOutside m m₃ (p ::ₘ B) := hout₂.trans
        ((hm.sameOutside h₂.space).mono fun a => Multiset.mem_cons_of_mem)
      cases ok with
      | false =>
        have h₃ := h₂.mapped_false hm (by rw [maxVa_div]; omega) hs
        refine (h₃.kfree hp hpB).bind ?_
        rintro _ m₄ ⟨h₄, hout₄⟩
        refine uvmdealloc_grown h₄ ⟨label_mapped, fun u _ => find_mapped_false u⟩ hk (hout₃.trans hout₄) hnew fun hd j hj =>
          htook₃.not_supplies ?_
        have := hd.missing (by omega)
        have hshort : ps.length ≠ t.missing v := fun he => by cases hm.full.mpr he
        have := hm.le
        simp only [List.singleton_append, List.length_cons]
        omega
      | true =>
        have h₃ := h₂.mapped_true hm hs (perm_lt hx) (perm_ne xperm) hp hpB
        rw [Kmem.page_setPage_self] at h₃
        have hnext : (v * pgSize + pgSize) % 2 ^ 64 = (v + 1) * pgSize := by
          rw [pgSize_eq]
          omega
        have hrest := ih h₃ (by omega) (by omega)
        rw [label_mapped, Nat.max_eq_right (show v + 1 ≤ numPages newsz by omega)] at hrest
        have hdense : Dense t v →
            Dense (mapped t v (pa2pte p ||| (pteR ||| pteU ||| xperm) ||| pteV) ps true) (v + 1) ∧
              imagePages v + ([p] ++ ps).length = imagePages (v + 1) := fun hd => by
          refine ⟨hd.mapped (by omega) (hm.full.mp rfl).ge, ?_⟩
          have := hd.missing (by omega)
          have := hm.full.mp rfl
          simp only [List.singleton_append, List.length_cons]
          omega
        have hkeep : Keeps t (mapped t v (pa2pte p ||| (pteR ||| pteU ||| xperm) ||| pteV) ps true) k :=
          ⟨label_mapped, fun u hu => find_mapped_of_ne hm (by rw [maxVa_div]; omega)
            (by rw [maxVa_div]; omega) (by omega)⟩
        simp only [if_true, hnext]
        refine hrest.mono ?_
        rintro r m' (⟨hr, hg⟩ | ⟨hr, -, hg⟩)
        · exact Or.inl ⟨hr, hg.cons hkeep hk htook₃ hout₃ hdense⟩
        · exact Or.inr ⟨hr, hnew, hg.cons hkeep hk htook₃ hout₃ hdense⟩

/-- `uvmalloc` adds all pages that are asked for, or none. -/
theorem uvmalloc_spec {oldsz : ℕ} (newsz : ℕ) (h : Uvm L m t (numPages oldsz) img tf A)
    (hx : xperm < 1024) :
    Ensures (fun _ => False) (uvmalloc L t.label oldsz newsz xperm) (fun r m' =>
      (r = max oldsz newsz ∧ Grown L m m' t (numPages oldsz) (numPages oldsz)
        (numPages (max oldsz newsz)) img xperm tf A true) ∨
      (r = 0 ∧ newsz ≠ 0 ∧ Grown L m m' t (numPages oldsz) (numPages oldsz)
        (numPages (max oldsz newsz)) img xperm tf A false)) m := by
  unfold uvmalloc
  by_cases hlt : newsz < oldsz
  · rw [if_pos hlt, Nat.max_eq_left hlt.le]
    refine Or.inl ⟨rfl, SameOutside.refl m A, t, Keeps.refl t _, ?_, [], Took.refl m, fun hd => ⟨hd, rfl⟩⟩
    exact h.congr (fun u hu => if_pos hu) fun u hu => if_pos hu
  · have hround : pgRoundUp oldsz = numPages oldsz * pgSize := pgRoundUp_eq (by
      have := h.sz_le
      rw [pgSize_eq] at *
      omega)
    have hmono : numPages oldsz ≤ numPages newsz := numPages_mono (by omega)
    have hspec := uvmallocLoop_spec ((newsz - numPages oldsz * pgSize + (pgSize - 1)) / pgSize) newsz
      h le_rfl hx (by
        unfold numPages
        rw [pgSize_eq]
        omega)
    rw [Nat.max_eq_right hmono] at hspec
    rw [if_neg hlt, Nat.max_eq_right (by omega), hround]
    exact hspec

end Xv6.Vm
