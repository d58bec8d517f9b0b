import Xv6.Vm.Free

/-! `proc_pagetable`: a new address space without user memory. -/
namespace Xv6.Vm

open Lib Lib.Radix

variable {L : Layout} {m m' : Kmem} {t : Table 2} {x v w p tf : ℕ} {ps : List ℕ}

/-- The free list has different pages of RAM. -/
structure Kmem.Wf (L : Layout) (m : Kmem) : Prop where
  nodup : m.freelist.Nodup
  ram : ∀ a ∈ m.freelist, L.Ram a

theorem Space.wf {U A : Multiset ℕ} (h : Space L m t U A) : m.Wf L :=
  ⟨Multiset.coe_nodup.mp (Multiset.nodup_of_le (Multiset.le_add_right _ _) h.nodup_parts.1),
    fun a ha => h.ram a (h.mem_of_free ha)⟩

theorem uvmcreate_spec {E : String → Prop} (h : m.Wf L) : Ensures E uvmcreate (fun r m' =>
    Took m m' r.toList r.isSome ∧ SameOutside m m' m.freelist ∧
      match r with
      | none => m'.freelist = m.freelist
      | some p => Space L m' (Tree.empty 0 2 p : Table 2) 0 m.freelist) m := by
  unfold uvmcreate
  refine kalloc_spec.bind ?_
  rintro (_ | p) m₁ ⟨htook, hpage⟩
  · refine ⟨htook, fun a _ => hpage a (by simp), ?_⟩
    simpa using htook.freelist.symm
  · have hfree : m.freelist = p :: m₁.freelist := htook.freelist
    have hp : p ∈ m.freelist := by
      rw [hfree]
      exact List.mem_cons_self
    apply ensures_memset
    refine ⟨htook.setPage p _, fun a ha => ?_, Rep.empty fun i => Kmem.pte_zero, ?_, ?_, h.ram, ?_⟩
    · have hne : a ≠ p := fun he => ha (he ▸ hp)
      rw [Kmem.page_setPage_of_ne hne]
      exact hpage a fun he => hne (Option.some.inj he).symm
    · show (m₁.freelist : Multiset ℕ) + (Tree.empty 0 2 p : Table 2).labels + 0 = m.freelist
      rw [Tree.labels_empty, add_zero, hfree, ← Multiset.cons_coe, add_comm, Multiset.singleton_add]
    · exact Multiset.coe_nodup.mpr h.nodup
    · exact fun v hv => absurd hv (Multiset.notMem_zero v)

theorem apart_of_lt (hv : maxVa / pgSize - 2 ^ 18 ≤ v) (hv' : v < maxVa / pgSize) (hw : w < 2 ^ 18) :
    apart fanout 2 v w = 2 := by
  rw [apart, if_neg]
  intro he
  have := congrArg Fin.val he
  simp only [digit, Fin.val_ofNat, fanout_eq] at this
  rw [maxVa_div] at *
  omega

theorem apart_trampoline : apart fanout 2 trampolinePage trapframePage = 0 := by
  have hdigit : ∀ l u, (digit fanout l u).val = u / 512 ^ l % 512 := fun l u => by
    rw [digit, Fin.val_ofNat, fanout_eq]
  have htop : digit fanout 2 trampolinePage = digit fanout 2 trapframePage := by
    apply Fin.ext
    rw [hdigit, hdigit]
    decide
  have hlow : digit fanout 1 trampolinePage = digit fanout 1 trapframePage := by
    apply Fin.ext
    rw [hdigit, hdigit]
    decide
  rw [apart, if_pos htop, apart, if_pos hlow, apart]

theorem uvm_zero {A : Multiset ℕ} {y : ℕ} {qs : List ℕ} (img : Image)
    (hx : x = pa2pte L.trampoline ||| (pteR ||| pteX) ||| pteV)
    (hy : y = pa2pte tf ||| (pteR ||| pteW) ||| pteV)
    (hps : (Tree.empty 0 2 p : Table 2).missing trampolinePage ≤ ps.length)
    (hqs : (mapped (Tree.empty 0 2 p) trampolinePage x ps true).missing trapframePage ≤ qs.length)
    (hs : Space L m (mapped (mapped (Tree.empty 0 2 p) trampolinePage x ps true) trapframePage y qs
      true) 0 A) :
    Uvm L m (mapped (mapped (Tree.empty 0 2 p) trampolinePage x ps true) trapframePage y qs true) 0 img
      tf A ∧
      Dense (mapped (mapped (Tree.empty 0 2 p) trampolinePage x ps true) trapframePage y qs true) 0 := by
  have hmax := maxVa_div
  have htf := trapframePage_eq
  have htr := trampolinePage_eq
  have hfind : ∀ u < maxVa / pgSize,
      (mapped (mapped (Tree.empty 0 2 p : Table 2) trampolinePage x ps true) trapframePage y qs
        true).find 0 u = if u = trapframePage then y else if u = trampolinePage then x else 0 :=
    fun u hu => by
      rw [find_mapped (by omega) hu hqs, find_mapped (by omega) hu hps, Tree.find_empty]
  refine ⟨⟨hs, fun v hv => absurd hv (Nat.not_lt_zero v), fun v hv => absurd hv (Nat.not_lt_zero v),
    fun v _ hv => ?_, fun v hv hv' => ?_, ?_, ?_⟩, fun w _ hw => ?_⟩
  · rw [hfind v (by omega), if_neg (by omega), if_neg (by omega)]
  · rw [missing_mapped_upper (by omega) hv hv', missing_mapped_upper (by omega) hv hv',
      Tree.missing_empty]
  · rw [hfind _ (by omega), if_pos rfl, hy]
  · rw [hfind _ (by omega), if_neg (by omega), if_pos rfl, hx]
  · rw [missing_mapped hqs, missing_mapped hps, Tree.missing_empty,
      apart_of_lt (by omega) (by omega) hw, apart_of_lt (by omega) (by omega) hw, if_pos rfl]
    rfl

/-- `proc_pagetable` takes three pages: the mapping of the trapframe cannot fail. -/
theorem procPagetable_spec (h : m.Wf L) (htf : tf < 2 ^ 64) :
    Ensures (fun _ => False) (procPagetable L tf) (fun r m' =>
      SameOutside m m' m.freelist ∧
        match r with
        | none => (m'.freelist : Multiset ℕ) = m.freelist ∧ ¬m.Supplies 3
        | some pagetable => ∃ t : Table 2, t.label = pagetable ∧
            (∀ img, Uvm L m' t 0 img tf m.freelist) ∧ Dense t 0 ∧
            ∃ ps, ps.length = 3 ∧ Took m m' ps true) m := by
  have hmax := maxVa_div
  have htr := trampolinePage_eq
  have hfr := trapframePage_eq
  have hpa : L.trampoline < 2 ^ 64 := (L.trampoline_lt.trans_le L.kernelEnd_le).trans (by decide)
  unfold procPagetable
  refine (uvmcreate_spec h).bind ?_
  rintro (_ | p) m₁ ⟨htook, hout, hs₁⟩
  · refine ⟨hout, by rw [hs₁], htook.not_supplies ?_⟩
    decide
  have hlabel : (Tree.empty 0 2 p : Table 2).label = p := Tree.label_empty
  have hzero : ∀ u, (Tree.empty 0 2 p : Table 2).find 0 u = 0 := fun u => Tree.find_empty
  have hmiss : ∀ u, (Tree.empty 0 2 p : Table 2).missing u = 2 := fun u => Tree.missing_empty
  rw [trampolineVa_eq, trapframeVa_eq]
  have hmap := hs₁.mappages_page trampolinePage L.trampoline (pteR ||| pteX) (by omega)
    (by rw [hzero, Nat.zero_and]) hpa (by decide)
  rw [hlabel] at hmap
  refine hmap.bind ?_
  rintro ok m₂ ⟨ps, hm, hs₂⟩
  have htook₂ := htook.trans hm.took
  have hout₂ := hout.trans (hm.sameOutside hs₁)
  cases ok with
  | false =>
    have hshort : ps.length ≠ 2 := fun he => by cases hm.full.mpr (he.trans (hmiss _).symm)
    have hle := hm.le
    rw [hmiss] at hle
    have hfree := uvmfree_spec 0 hs₂ (fun v _ _ => (find_mapped_false v).trans (hzero v))
      fun v hv hv' => by rw [missing_mapped_upper (by omega) hv hv', hmiss]
    rw [label_mapped, hlabel] at hfree
    refine hfree.bind ?_
    rintro _ m₃ ⟨hfl, hout₃⟩
    refine ⟨hout₂.trans hout₃, hfl, htook₂.not_supplies ?_⟩
    simp only [Option.toList_some, List.singleton_append, List.length_cons]
    omega
  | true =>
    have hlen : ps.length = 2 := (hm.full.mp rfl).trans (hmiss _)
    have hfull : (Tree.empty 0 2 p : Table 2).missing trampolinePage ≤ ps.length := by
      rw [hlen, hmiss]
    have hnext : (mapped (Tree.empty 0 2 p) trampolinePage
        (pa2pte L.trampoline ||| (pteR ||| pteX) ||| pteV) ps true).missing trapframePage = 0 := by
      rw [missing_mapped hfull, apart_trampoline, Nat.min_zero]
    have hfree : (mapped (Tree.empty 0 2 p) trampolinePage
        (pa2pte L.trampoline ||| (pteR ||| pteX) ||| pteV) ps true).find 0 trapframePage &&& pteV =
        0 := by
      rw [find_mapped (by omega) (by omega) hfull, if_neg (by omega), hzero, Nat.zero_and]
    have hmap' := hs₂.mappages_page trapframePage tf (pteR ||| pteW) (by omega) hfree htf (by decide)
    rw [label_mapped, hlabel] at hmap'
    simp only [if_true]
    refine hmap'.bind ?_
    rintro ok m₃ ⟨qs, hm', hs₃⟩
    have hqs : qs.length = 0 := by
      have := hm'.le
      omega
    cases ok with
    | false => exact by cases hm'.full.mpr (hqs.trans hnext.symm)
    | true =>
      refine ⟨hout₂.trans (hm'.sameOutside hs₂), _, ?_, fun img => (uvm_zero img rfl rfl hfull
        (by omega) hs₃).1, (uvm_zero ⟨fun _ => 0, fun _ _ => 0⟩ rfl rfl hfull (by omega) hs₃).2, _, ?_,
        htook₂.trans hm'.took⟩
      · rw [label_mapped, label_mapped, hlabel]
      · simp only [Option.toList_some, List.singleton_append, List.length_cons, List.length_append,
          hlen, hqs]

def fortyPages : Kmem where
  page _ _ := 0
  freelist := (List.range 40).map fun i => 0x80030000 + pgSize * i
  calls := 0
  fails _ := false

theorem fortyPages_wf : fortyPages.Wf smallKernel := by
  have hram : ∀ a ∈ fortyPages.freelist, a % pgSize = 0 ∧ 0x80022000 ≤ a ∧ a < physTop := by decide
  exact ⟨by decide, fun a ha => ⟨(hram a ha).1, (hram a ha).2.1, (hram a ha).2.2⟩⟩

theorem exists_uvm (htf : tf < 2 ^ 64) : ∃ (m : Kmem) (t : Table 2),
    (∀ img, Uvm smallKernel m t 0 img tf fortyPages.freelist) ∧ Dense t 0 ∧ m.Supplies 37 := by
  obtain ⟨r, m, -, -, hr⟩ := (procPagetable_spec fortyPages_wf htf).exists_ok
  have hsup : fortyPages.Supplies 40 := ⟨by decide, fun _ _ => rfl⟩
  cases r with
  | none => exact absurd (hsup.mono (by decide)) hr.2
  | some pagetable =>
    obtain ⟨t, -, hu, hdense, ps, hlen, htook⟩ := hr
    refine ⟨m, t, hu, hdense, ?_⟩
    have := hsup.after htook
    rwa [hlen] at this

theorem exists_uvm_one (htf : tf < 2 ^ 64) : ∃ (m : Kmem) (t : Table 2),
    Uvm smallKernel m t 1 ⟨fun _ => pteR ||| pteU ||| pteW ||| pteV, fun _ _ => 0⟩ tf
      fortyPages.freelist := by
  obtain ⟨m, t, hu, hdense, hsup⟩ := exists_uvm htf
  have hzero := hu ⟨fun _ => pteR ||| pteU ||| pteW ||| pteV, fun _ _ => 0⟩
  rw [← numPages_zero] at hzero
  obtain ⟨r, m', -, hr⟩ := (uvmalloc_spec pgSize hzero (show pteW < 1024 by decide)).exists_ok
  have hpages : numPages (max 0 pgSize) = 1 := by decide
  rw [hpages, numPages_zero] at hr
  rcases hr with ⟨-, -, t', -, hu', -⟩ | ⟨-, -, -, -, -, -, hfail⟩
  · refine ⟨m', t', hu'.congr (fun v _ => ?_) fun v _ => ?_⟩
    · simp only [Image.fill, Nat.not_lt_zero, if_false]
    · simp only [Image.fill, Nat.not_lt_zero, if_false]
  · exact absurd hsup (hfail hdense 37 (by decide))

end Xv6.Vm
