import Xv6.Vm.Store

/-! `copyout` and `copyin` of `kernel/vm.c` through a page table. -/
namespace Xv6.Vm

open Lib Lib.Radix

def loadBytes (pa off n : ℕ) : Kern (List UInt8) := fun m => .ok ((m.page pa).slice off n, m)

/-- The loop of `copyin`, which makes at most `fuel` rounds: the bytes that it has stored at `dst`, and
`false` for -1. -/
def copyinBytesLoop (pagetable : ℕ) : ℕ → ℕ → ℕ → Kern (List UInt8 × Bool)
  | 0, _, len => return ([], len == 0)
  | fuel + 1, srcva, len =>
    if 0 < len then do
      let va0 := pgRoundDown srcva
      let pa0 ← walkaddr pagetable va0
      if pa0 = 0 then return ([], false)
      else
        let n := min (pgSize - (srcva - va0)) len
        let bytes ← loadBytes pa0 (srcva - va0) n
        let (rest, ok) ← copyinBytesLoop pagetable fuel ((va0 + pgSize) % 2 ^ 64) (len - n)
        return (bytes ++ rest, ok)
    else return ([], true)

def copyinBytes (pagetable srcva len : ℕ) : Kern (List UInt8 × Bool) :=
  copyinBytesLoop pagetable len srcva len

structure UserPage (t : Table 2) (v : ℕ) : Prop where
  lt : v < maxVa / pgSize
  valid : t.find 0 v &&& pteV ≠ 0
  user : t.find 0 v &&& pteU ≠ 0

structure UserWritable (t : Table 2) (v : ℕ) : Prop extends UserPage t v where
  writable : t.find 0 v &&& pteW ≠ 0

/-- A page table in memory, in which no page of the user is at address 0. -/
structure UserMapped (m : Kmem) (t : Table 2) : Prop where
  rep : Rep m t
  ne_zero : ∀ v, UserPage t v → pte2pa (t.find 0 v) ≠ 0

/-- The pages of the user are distinct, and not pages of the table. -/
structure UserTable (m : Kmem) (t : Table 2) : Prop extends UserMapped m t where
  not_label : ∀ v, UserPage t v → pte2pa (t.find 0 v) ∉ t.labels
  inj : ∀ v w, UserPage t v → UserPage t w → pte2pa (t.find 0 v) = pte2pa (t.find 0 w) → v = w

theorem UserPage.of_uvm {L : Layout} {m : Kmem} {t : Table 2} {n tf v : ℕ} {img : Image}
    {A : Multiset ℕ} (h : Uvm L m t n img tf A) (hv : UserPage t v) : v < n := by
  have hmax := hv.lt
  rw [maxVa_div] at hmax
  by_contra hn
  by_cases hrest : v < trapframePage
  · exact hv.valid (by rw [h.rest v (not_lt.mp hn) hrest, Nat.zero_and])
  rw [trapframePage_eq] at hrest
  rcases show v = 2 ^ 26 - 2 ∨ v = 2 ^ 26 - 1 by omega with rfl | rfl
  · have htf := h.trapframe
    rw [trapframePage_eq] at htf
    apply hv.user
    rw [htf, Nat.or_assoc, pa2pte_or_and (by decide) (by decide)]
    decide
  · have htr := h.trampoline
    rw [trampolinePage_eq] at htr
    apply hv.user
    rw [htr, Nat.or_assoc, pa2pte_or_and (by decide) (by decide)]
    decide

theorem UserTable.of_uvm {L : Layout} {m : Kmem} {t : Table 2} {n tf : ℕ} {img : Image}
    {A : Multiset ℕ} (h : Uvm L m t n img tf A) : UserTable m t where
  rep := h.space.rep
  ne_zero _ hv := (h.space.ram _ (h.space.mem_of_data (Uvm.mem_data (hv.of_uvm h)))).pos.ne'
  not_label _ hv := h.space.data_not_label (Uvm.mem_data (hv.of_uvm h))
  inj _ _ hv hw heq := h.pa_inj (hv.of_uvm h) (hw.of_uvm h) heq

def userByte (m : Kmem) (t : Table 2) (va : ℕ) : UInt8 :=
  (m.page (pte2pa (t.find 0 (va / pgSize)))).get (va % pgSize)

/-- Of the `len` bytes at `va`, the first `j` are in pages with `P`, and no more. -/
structure Extent (P : ℕ → Prop) (va len j : ℕ) : Prop where
  le : j ≤ len
  inside : ∀ k < j, P ((va + k) / pgSize)
  stops : j < len → ¬P ((va + j) / pgSize)

/-- The bytes `l` were stored at `va`, and nothing else changed. -/
structure Stored (t : Table 2) (m m' : Kmem) (va : ℕ) (l : List UInt8) : Prop where
  byte : ∀ k (h : k < l.length), userByte m' t (va + k) = l[k]
  other : ∀ pa off, (∀ k < l.length,
    ¬(pte2pa (t.find 0 ((va + k) / pgSize)) = pa ∧ (va + k) % pgSize = off)) →
    (m'.page pa).get off = (m.page pa).get off
  same : m' = { m with page := m'.page }

section Extent

variable {P : ℕ → Prop} {va len n j j' : ℕ}

theorem Extent.zero (P : ℕ → Prop) (va : ℕ) : Extent P va 0 0 :=
  ⟨le_rfl, fun _ h => absurd h (Nat.not_lt_zero _), fun h => absurd h (Nat.not_lt_zero _)⟩

theorem Extent.none (h : ¬P (va / pgSize)) : Extent P va len 0 :=
  ⟨Nat.zero_le _, fun _ hk => absurd hk (Nat.not_lt_zero _), fun _ => h⟩

theorem Extent.add (h : Extent P (va + n) (len - n) j) (hn : n ≤ len) (hpage : va % pgSize + n ≤ pgSize)
    (hP : P (va / pgSize)) : Extent P va len (n + j) := by
  have hle := h.le
  refine ⟨by omega, fun k hk => ?_, fun hlt => ?_⟩
  · by_cases hkn : k < n
    · have hsame : (va + k) / pgSize = va / pgSize := by
        rw [pgSize_eq] at *
        omega
      rwa [hsame]
    · have := h.inside (k - n) (by omega)
      rwa [show va + n + (k - n) = va + k by omega] at this
  · rw [← Nat.add_assoc]
    exact h.stops (by omega)

theorem Extent.eq_iff (h : Extent P va len j) : j = len ↔ ∀ k < len, P ((va + k) / pgSize) := by
  constructor
  · rintro rfl
    exact h.inside
  · intro hall
    by_contra hne
    have hlt : j < len := lt_of_le_of_ne h.le hne
    exact h.stops hlt (hall j hlt)

theorem Extent.unique (h : Extent P va len j) (h' : Extent P va len j') : j = j' := by
  rcases lt_trichotomy j j' with hlt | heq | hlt
  · exact absurd (h'.inside j hlt) (h.stops (hlt.trans_le h'.le))
  · exact heq
  · exact absurd (h.inside j' hlt) (h'.stops (hlt.trans_le h.le))

end Extent

variable {m m' m₁ : Kmem} {t : Table 2} {va v n j pa off : ℕ} {l l' : List UInt8}

theorem pgRoundDown_div (va : ℕ) : pgRoundDown va / pgSize = va / pgSize :=
  Nat.mul_div_cancel _ (by decide)

theorem sub_pgRoundDown (va : ℕ) : va - pgRoundDown va = va % pgSize := by
  rw [pgRoundDown, pgSize_eq]
  omega

theorem pgRoundDown_lt_iff : pgRoundDown va < maxVa ↔ va / pgSize < maxVa / pgSize := by
  rw [pgRoundDown, maxVa, pgSize_eq]
  omega

theorem walkaddr_page (h : UserMapped m t) (va : ℕ) :
    ∃ pa, walkaddr t.label (pgRoundDown va) m = .ok (pa, m) ∧ (pa = 0 ↔ ¬UserPage t (va / pgSize)) ∧
      (pa ≠ 0 → pa = pte2pa (t.find 0 (va / pgSize))) := by
  refine ⟨_, walkaddr_eq (pgRoundDown va) h.rep, ?_⟩
  rw [pgRoundDown_div]
  split_ifs with hu
  · have hpage : UserPage t (va / pgSize) := ⟨pgRoundDown_lt_iff.mp hu.1, hu.2.1, hu.2.2⟩
    exact ⟨⟨fun h0 => absurd h0 (h.ne_zero _ hpage), fun hn => absurd hpage hn⟩, fun _ => rfl⟩
  · refine ⟨⟨fun _ hp => hu ⟨pgRoundDown_lt_iff.mpr hp.lt, hp.valid, hp.user⟩, fun _ => rfl⟩, ?_⟩
    exact fun hne => absurd rfl hne

theorem slice_userByte (hn : va % pgSize + n ≤ pgSize) :
    (m.page (pte2pa (t.find 0 (va / pgSize)))).slice (va % pgSize) n =
      (List.range n).map fun k => userByte m t (va + k) := by
  apply List.map_congr_left
  intro k hk
  rw [List.mem_range] at hk
  have hdiv : (va + k) / pgSize = va / pgSize := by
    rw [pgSize_eq] at *
    omega
  have hmod : (va + k) % pgSize = va % pgSize + k := by
    rw [pgSize_eq] at *
    omega
  rw [userByte, hdiv, hmod]

theorem next_page (len : ℕ) (hlt : va / pgSize < maxVa / pgSize) :
    (pgRoundDown va + pgSize) % 2 ^ 64 = va + min (pgSize - va % pgSize) len ∨
      len - min (pgSize - va % pgSize) len = 0 := by
  rw [pgRoundDown]
  rw [maxVa, pgSize_eq] at *
  omega

theorem copyinBytesLoop_zero (pagetable fuel srcva : ℕ) :
    copyinBytesLoop pagetable fuel srcva 0 m = .ok (([], true), m) := by
  cases fuel with
  | zero => rfl
  | succ fuel => rfl

theorem copyinBytesLoop_eq (h : UserMapped m t) {fuel len : ℕ} (hfuel : len ≤ fuel) (va : ℕ) :
    ∃ j, Extent (UserPage t) va len j ∧ copyinBytesLoop t.label fuel va len m =
      .ok (((List.range j).map fun k => userByte m t (va + k), decide (j = len)), m) := by
  induction fuel generalizing va len with
  | zero =>
    obtain rfl : len = 0 := by omega
    exact ⟨0, Extent.zero _ va, rfl⟩
  | succ fuel ih =>
    by_cases hlen : 0 < len
    swap
    · obtain rfl : len = 0 := by omega
      exact ⟨0, Extent.zero _ va, rfl⟩
    obtain ⟨pa, hwalk, hzero, hpa⟩ := walkaddr_page h va
    rw [copyinBytesLoop, if_pos hlen, bind_of_ok hwalk]
    by_cases h0 : pa = 0
    · refine ⟨0, Extent.none (hzero.mp h0), ?_⟩
      rw [if_pos h0, decide_eq_false hlen.ne]
      rfl
    · have hpage : UserPage t (va / pgSize) := not_not.mp (mt hzero.mpr h0)
      have hmod := Nat.mod_lt va (show 0 < pgSize by decide)
      set n := min (pgSize - va % pgSize) len with hn
      have hload : loadBytes pa (va - pgRoundDown va) n m =
          .ok ((List.range n).map fun k => userByte m t (va + k), m) := by
        rw [loadBytes, sub_pgRoundDown, hpa h0, slice_userByte (by omega)]
      obtain ⟨j, hext, hrest⟩ : ∃ j, Extent (UserPage t) (va + n) (len - n) j ∧
          copyinBytesLoop t.label fuel ((pgRoundDown va + pgSize) % 2 ^ 64) (len - n) m =
            .ok (((List.range j).map fun k => userByte m t (va + n + k), decide (j = len - n)), m) := by
        rcases next_page len hpage.lt with hnext | hdone
        · rw [hnext, ← hn]
          exact ih (by omega) (va + n)
        · rw [← hn] at hdone
          rw [hdone, copyinBytesLoop_zero]
          exact ⟨0, Extent.zero _ _, rfl⟩
      refine ⟨n + j, hext.add (by omega) (by omega) hpage, ?_⟩
      have hle := hext.le
      rw [if_neg h0]
      simp only [sub_pgRoundDown] at hload ⊢
      rw [← hn, bind_of_ok hload, bind_of_ok hrest, List.range_add, List.map_append, List.map_map]
      have hdec : decide (j = len - n) = decide (n + j = len) := decide_eq_decide.mpr (by omega)
      rw [hdec]
      simp only [Function.comp_def, Nat.add_assoc]
      rfl

/-! Storing bytes at virtual addresses. -/

theorem Stored.nil (t : Table 2) (m : Kmem) (va : ℕ) : Stored t m m va [] :=
  ⟨fun _ h => absurd h (Nat.not_lt_zero _), fun _ _ _ => rfl, rfl⟩

theorem UserTable.stored (h : UserTable m t) (hs : Stored t m m' va l)
    (hu : ∀ k < l.length, UserPage t ((va + k) / pgSize)) : UserTable m' t := by
  refine ⟨⟨h.rep.frame fun a ha => ?_, h.ne_zero⟩, h.not_label, h.inj⟩
  apply Bytes.ext_get
  intro i _
  refine hs.other a i fun k hk hc => h.not_label _ (hu k hk) ?_
  rw [hc.1]
  exact ha

theorem UserTable.byte_inj (h : UserTable m t) {a b : ℕ} (ha : UserPage t (a / pgSize))
    (hb : UserPage t (b / pgSize))
    (heq : pte2pa (t.find 0 (a / pgSize)) = pte2pa (t.find 0 (b / pgSize)) ∧ a % pgSize = b % pgSize) :
    a = b := by
  have hdiv := h.inj _ _ ha hb heq.1
  have hmod := heq.2
  rw [pgSize_eq] at *
  omega

theorem Stored.append (h : UserTable m t) (hs : Stored t m m₁ va l)
    (hs' : Stored t m₁ m' (va + l.length) l')
    (hu : ∀ k < l.length + l'.length, UserPage t ((va + k) / pgSize)) : Stored t m m' va (l ++ l') := by
  refine ⟨fun k hk => ?_, fun pa off hno => ?_, ?_⟩
  · rw [List.length_append] at hk
    by_cases hlt : k < l.length
    · rw [List.getElem_append_left hlt, ← hs.byte k hlt]
      refine hs'.other _ _ fun i hi hc => ?_
      have := h.byte_inj (by rw [Nat.add_assoc]; exact hu _ (by omega)) (hu k (by omega)) hc
      omega
    · have := hs'.byte (k - l.length) (by omega)
      rw [List.getElem_append_right (by omega), ← this]
      congr 1
      omega
  · rw [List.length_append] at hno
    have hsecond := hs'.other pa off fun k hk => by
      rw [Nat.add_assoc]
      exact hno _ (by omega)
    exact hsecond.trans (hs.other pa off fun k hk => hno k (by omega))
  · rw [hs'.same, hs.same]

theorem Stored.page (hl : va % pgSize + l.length ≤ pgSize) (hpa : pa = pte2pa (t.find 0 (va / pgSize))) :
    Stored t m (m.setPage pa ((m.page pa).blit (va % pgSize) l)) va l := by
  have hdiv : ∀ k < l.length, (va + k) / pgSize = va / pgSize := fun k hk => by
    rw [pgSize_eq] at *
    omega
  have hmod : ∀ k < l.length, (va + k) % pgSize = va % pgSize + k := fun k hk => by
    rw [pgSize_eq] at *
    omega
  refine ⟨fun k hk => ?_, fun pb off hno => ?_, rfl⟩
  · rw [userByte, hdiv k hk, hmod k hk, ← hpa, Kmem.page_setPage_self, Bytes.get_blit]
    rw [if_pos (by omega)]
    simp [hk]
  · by_cases hpb : pb = pa
    · rw [hpb, Kmem.page_setPage_self, Bytes.get_blit_of_disjoint]
      by_contra hc
      refine hno (off - va % pgSize) (by omega) ⟨?_, ?_⟩
      · rw [hdiv _ (by omega), hpb, hpa]
      · rw [hmod _ (by omega)]
        omega
    · rw [Kmem.page_setPage_of_ne hpb]

theorem not_writable_iff (hlt : v < maxVa / pgSize) :
    t.find 0 v &&& pteV = 0 ∨ t.find 0 v &&& pteU = 0 ∨ t.find 0 v &&& pteW = 0 ↔ ¬UserWritable t v := by
  constructor
  · rintro (hc | hc | hc) hw
    · exact hw.valid hc
    · exact hw.user hc
    · exact hw.writable hc
  · intro hn
    by_contra hc
    simp only [not_or] at hc
    exact hn ⟨⟨hlt, hc.1, hc.2.1⟩, hc.2.2⟩

theorem copyoutBytesLoop_nil (pagetable fuel dstva : ℕ) :
    copyoutBytesLoop pagetable fuel dstva [] m = .ok (true, m) := by
  cases fuel with
  | zero => rfl
  | succ fuel => rfl

theorem copyoutBytesLoop_refused (h : UserTable m t) {fuel : ℕ} (hl : 0 < l.length)
    (hw : ¬UserWritable t (va / pgSize)) :
    copyoutBytesLoop t.label (fuel + 1) va l m = .ok (false, m) := by
  rw [copyoutBytesLoop, if_pos hl]
  by_cases hva : maxVa ≤ pgRoundDown va
  · rw [if_pos hva]
    rfl
  have hlt := pgRoundDown_lt_iff.mp (not_le.mp hva)
  rw [if_neg hva, bind_of_ok (walk_eq h.rep (not_le.mp hva)), pgRoundDown_div]
  cases hp : t.leaf (va / pgSize) with
  | none => rfl
  | some p =>
    have hpte : loadPte p (px 0 (pgRoundDown va)) m = .ok (t.find 0 (va / pgSize), m) := by
      rw [loadPte, ← digit_zero_px, pgRoundDown_div, h.rep.pte_leaf hp]
    simp only [Option.map_some]
    rw [bind_of_ok hpte, if_pos ((not_writable_iff hlt).mpr hw)]
    rfl

theorem copyoutBytesLoop_store (h : UserTable m t) {fuel : ℕ} (hl : 0 < l.length)
    (hw : UserWritable t (va / pgSize)) (hn : n = min (pgSize - va % pgSize) l.length)
    (hpa : pa = pte2pa (t.find 0 (va / pgSize))) :
    copyoutBytesLoop t.label (fuel + 1) va l m =
      copyoutBytesLoop t.label fuel ((pgRoundDown va + pgSize) % 2 ^ 64) (l.drop n)
        (m.setPage pa ((m.page pa).blit (va % pgSize) (l.take n))) := by
  have hva : pgRoundDown va < maxVa := pgRoundDown_lt_iff.mpr hw.lt
  obtain ⟨p, hp⟩ := leaf_of_find fun h0 : t.find 0 (va / pgSize) = 0 =>
    hw.valid (by rw [h0, Nat.zero_and])
  have hpte : loadPte p (px 0 (pgRoundDown va)) m = .ok (t.find 0 (va / pgSize), m) := by
    rw [loadPte, ← digit_zero_px, pgRoundDown_div, h.rep.pte_leaf hp]
  rw [copyoutBytesLoop, if_pos hl, if_neg (by omega), bind_of_ok (walk_eq h.rep hva), pgRoundDown_div, hp]
  simp only [Option.map_some]
  rw [bind_of_ok hpte, if_neg fun hc => (not_writable_iff hw.lt).mp hc hw, sub_pgRoundDown, ← hn, ← hpa]
  rfl

theorem copyoutBytesLoop_eq (h : UserTable m t) {fuel : ℕ} (hfuel : l.length ≤ fuel) (va : ℕ) :
    ∃ j m', Extent (UserWritable t) va l.length j ∧ Stored t m m' va (l.take j) ∧
      copyoutBytesLoop t.label fuel va l m = .ok (decide (j = l.length), m') := by
  induction fuel generalizing va l m with
  | zero =>
    obtain rfl : l = [] := List.length_eq_zero_iff.mp (by omega)
    exact ⟨0, m, Extent.zero _ va, Stored.nil t m va, rfl⟩
  | succ fuel ih =>
    by_cases hl : 0 < l.length
    swap
    · obtain rfl : l = [] := List.length_eq_zero_iff.mp (by omega)
      exact ⟨0, m, Extent.zero _ va, Stored.nil t m va, rfl⟩
    by_cases hw : UserWritable t (va / pgSize)
    swap
    · refine ⟨0, m, Extent.none hw, Stored.nil t m va, ?_⟩
      rw [copyoutBytesLoop_refused h hl hw, decide_eq_false hl.ne]
    have hmod := Nat.mod_lt va (show 0 < pgSize by decide)
    obtain ⟨n, hn⟩ : ∃ n, n = min (pgSize - va % pgSize) l.length := ⟨_, rfl⟩
    have hlen : (l.take n).length = n := by
      rw [List.length_take]
      omega
    have hstore := Stored.page (m := m) (t := t)
      (show va % pgSize + (l.take n).length ≤ pgSize by omega) rfl
    set m₁ := m.setPage (pte2pa (t.find 0 (va / pgSize)))
      ((m.page (pte2pa (t.find 0 (va / pgSize)))).blit (va % pgSize) (l.take n)) with hm₁
    have hsame : ∀ k < n, (va + k) / pgSize = va / pgSize := fun k hk => by
      rw [pgSize_eq] at *
      omega
    have h₁ : UserTable m₁ t := h.stored hstore fun k hk => by
      rw [hsame k (by omega)]
      exact hw.toUserPage
    obtain ⟨j, m', hext, hrest, hrun⟩ : ∃ j m', Extent (UserWritable t) (va + n) (l.drop n).length j ∧
        Stored t m₁ m' (va + n) ((l.drop n).take j) ∧
        copyoutBytesLoop t.label fuel ((pgRoundDown va + pgSize) % 2 ^ 64) (l.drop n) m₁ =
          .ok (decide (j = (l.drop n).length), m') := by
      rcases next_page l.length hw.lt with hnext | hdone
      · rw [hnext, ← hn]
        refine ih h₁ ?_ (va + n)
        rw [List.length_drop]
        omega
      · rw [← hn, ← List.length_drop] at hdone
        rw [List.length_eq_zero_iff.mp hdone, copyoutBytesLoop_nil]
        exact ⟨0, m₁, Extent.zero _ _, Stored.nil t m₁ _, rfl⟩
    rw [List.length_drop] at hext hrun
    have hle := hext.le
    refine ⟨n + j, m', hext.add (by omega) (by omega) hw, ?_, ?_⟩
    · rw [List.take_add]
      refine hstore.append h (by rw [hlen]; exact hrest) fun k hk => ?_
      rw [hlen, List.length_take, List.length_drop] at hk
      exact ((hext.add (by omega) (by omega) hw).inside k (by omega)).toUserPage
    · rw [copyoutBytesLoop_store h hl hw hn rfl, ← hm₁, hrun]
      have hdec : decide (j = l.length - n) = decide (n + j = l.length) :=
        decide_eq_decide.mpr (by omega)
      rw [hdec]

theorem copyoutBytes_byte (h : UserTable m t) (va : ℕ) (ch : UInt8) :
    (UserWritable t (va / pgSize) ∧ ∃ m', copyoutBytes t.label va [ch] m = .ok (true, m') ∧
        Stored t m m' va [ch] ∧ UserTable m' t) ∨
      (¬UserWritable t (va / pgSize) ∧ copyoutBytes t.label va [ch] m = .ok (false, m)) := by
  by_cases hw : UserWritable t (va / pgSize)
  · left
    obtain ⟨j, m', hext, hs, hrun⟩ := copyoutBytesLoop_eq h (le_refl [ch].length) va
    obtain rfl : j = [ch].length := hext.eq_iff.mpr fun k hk => by
      obtain rfl : k = 0 := by simpa using hk
      exact hw
    rw [List.take_length] at hs
    refine ⟨hw, m', hrun, hs, h.stored hs fun k hk => ?_⟩
    obtain rfl : k = 0 := by simpa using hk
    exact hw.toUserPage
  · exact Or.inr ⟨hw, copyoutBytesLoop_refused h (Nat.succ_pos 0) hw⟩

theorem Stored.unique {m'' : Kmem} (h : Stored t m m' va l) (h' : Stored t m m'' va l) : m' = m'' := by
  have hpage : m'.page = m''.page := by
    funext pa
    apply Bytes.ext_get
    intro off _
    by_cases hin : ∃ k < l.length, pte2pa (t.find 0 ((va + k) / pgSize)) = pa ∧ (va + k) % pgSize = off
    · obtain ⟨k, hk, rfl, rfl⟩ := hin
      exact (h.byte k hk).trans (h'.byte k hk).symm
    · have hno : ∀ k < l.length,
          ¬(pte2pa (t.find 0 ((va + k) / pgSize)) = pa ∧ (va + k) % pgSize = off) :=
        fun k hk hc => hin ⟨k, hk, hc⟩
      exact (h.other pa off hno).trans (h'.other pa off hno).symm
  rw [h.same, h'.same, hpage]

theorem copyoutBytesLoop_fuel (h : UserTable m t) {fuel : ℕ} (hfuel : l.length ≤ fuel) (va : ℕ) :
    copyoutBytesLoop t.label fuel va l m = copyoutBytes t.label va l m := by
  obtain ⟨j, m', hext, hs, hrun⟩ := copyoutBytesLoop_eq h hfuel va
  obtain ⟨j', m'', hext', hs', hrun'⟩ := copyoutBytesLoop_eq h (le_refl l.length) va
  obtain rfl := hext.unique hext'
  rw [hrun, copyoutBytes, hrun', hs.unique hs']

theorem copyinBytesLoop_fuel (h : UserTable m t) {fuel len : ℕ} (hfuel : len ≤ fuel) (va : ℕ) :
    copyinBytesLoop t.label fuel va len m = copyinBytes t.label va len m := by
  obtain ⟨j, hext, hrun⟩ := copyinBytesLoop_eq h.toUserMapped hfuel va
  obtain ⟨j', hext', hrun'⟩ := copyinBytesLoop_eq h.toUserMapped (le_refl len) va
  obtain rfl := hext.unique hext'
  rw [hrun, copyinBytes, hrun']

theorem copyinBytes_congr (h : UserTable m t) (h' : UserTable m' t)
    (hpage : ∀ v, UserPage t v → m'.page (pte2pa (t.find 0 v)) = m.page (pte2pa (t.find 0 v)))
    {len : ℕ} {r : List UInt8 × Bool} (hrun : copyinBytes t.label va len m = .ok (r, m)) :
    copyinBytes t.label va len m' = .ok (r, m') := by
  obtain ⟨j, hext, hj⟩ := copyinBytesLoop_eq h.toUserMapped (le_refl len) va
  obtain ⟨j', hext', hj'⟩ := copyinBytesLoop_eq h'.toUserMapped (le_refl len) va
  obtain rfl := hext.unique hext'
  rw [copyinBytes, hj, Except.ok.injEq, Prod.mk.injEq] at hrun
  rw [copyinBytes, hj', ← hrun.1]
  congr 3
  apply List.map_congr_left
  intro k hk
  rw [userByte, userByte, hpage _ (hext.inside k (List.mem_range.mp hk))]

theorem Stored.copyin (h : UserTable m t) (hs : Stored t m m' va l)
    (hu : ∀ k < l.length, UserPage t ((va + k) / pgSize)) :
    copyinBytes t.label va l.length m' = .ok ((l, true), m') := by
  obtain ⟨j, hext, hrun⟩ := copyinBytesLoop_eq (h.stored hs hu).toUserMapped (le_refl l.length) va
  obtain rfl := hext.eq_iff.mpr hu
  have hl : ((List.range l.length).map fun k => userByte m' t (va + k)) = l := by
    refine List.ext_getElem (by rw [List.length_map, List.length_range]) fun k hk hk' => ?_
    rw [List.getElem_map, List.getElem_range]
    exact hs.byte k hk'
  rw [copyinBytes, hrun, hl, decide_eq_true rfl]

/-- `copyout` and `copyin` transfer the bytes that the user may write or read. -/
theorem copy_user_exact (h : UserTable m t) (va : ℕ) :
    (∀ src : List UInt8, ∃ ok m' j, copyoutBytes t.label va src m = .ok (ok, m') ∧
      (ok = true ↔ ∀ k < src.length, UserWritable t ((va + k) / pgSize)) ∧
      (ok = true → j = src.length) ∧ Extent (UserWritable t) va src.length j ∧
      Stored t m m' va (src.take j) ∧
      (ok = true → copyinBytes t.label va src.length m' = .ok ((src, true), m')) ∧
      ∀ fuel, src.length ≤ fuel →
        copyoutBytesLoop t.label fuel va src m = copyoutBytes t.label va src m) ∧
    ∀ len : ℕ, ∃ dst ok j, copyinBytes t.label va len m = .ok ((dst, ok), m) ∧
      (ok = true ↔ ∀ k < len, UserPage t ((va + k) / pgSize)) ∧
      (ok = true → j = len) ∧ Extent (UserPage t) va len j ∧
      dst = ((List.range j).map fun k => userByte m t (va + k)) ∧
      (∀ m₂, UserTable m₂ t →
        (∀ v, UserPage t v → m₂.page (pte2pa (t.find 0 v)) = m.page (pte2pa (t.find 0 v))) →
        copyinBytes t.label va len m₂ = .ok ((dst, ok), m₂)) ∧
      ∀ fuel, len ≤ fuel → copyinBytesLoop t.label fuel va len m = copyinBytes t.label va len m := by
  refine ⟨fun src => ?_, fun len => ?_⟩
  · obtain ⟨j, m', hext, hs, hrun⟩ := copyoutBytesLoop_eq h (le_refl src.length) va
    refine ⟨_, m', j, hrun, ?_, of_decide_eq_true, hext, hs, fun hok => ?_, fun fuel hfuel =>
      copyoutBytesLoop_fuel h hfuel va⟩
    · rw [decide_eq_true_iff]
      exact hext.eq_iff
    · have hj := of_decide_eq_true hok
      rw [hj, List.take_length] at hs
      exact hs.copyin h fun k hk => (hext.eq_iff.mp hj k hk).toUserPage
  · obtain ⟨j, hext, hrun⟩ := copyinBytesLoop_eq h.toUserMapped (le_refl len) va
    refine ⟨_, _, j, hrun, ?_, of_decide_eq_true, hext, rfl, fun m₂ h₂ hpage => ?_, fun fuel hfuel =>
      copyinBytesLoop_fuel h hfuel va⟩
    · rw [decide_eq_true_iff]
      exact hext.eq_iff
    · exact copyinBytes_congr h h₂ hpage hrun

theorem exists_userWritable : ∃ (m : Kmem) (t : Table 2), UserTable m t ∧ UserWritable t 0 := by
  obtain ⟨m, t, hu⟩ := exists_uvm_one (show 0x80022000 < 2 ^ 64 by decide)
  have hflags : ∀ x < 1024, t.find 0 0 &&& x = (pteR ||| pteU ||| pteW ||| pteV) &&& x :=
    fun x hx => hu.and_flags (by decide) hx
  refine ⟨m, t, .of_uvm hu, ⟨by decide, ?_, ?_⟩, ?_⟩ <;> rw [hflags _ (by decide)] <;> decide

theorem copy_user_exact_one : ∃ (m m' : Kmem) (t : Table 2), UserTable m t ∧
    copyoutBytes t.label 4094 [1, 2] m = .ok (true, m') ∧
    copyinBytes t.label 4094 2 m' = .ok (([1, 2], true), m') := by
  obtain ⟨m, t, h, hw⟩ := exists_userWritable
  obtain ⟨ok, m', j, hrun, hiff, -, -, -, hin, -⟩ := (copy_user_exact h 4094).1 [1, 2]
  have hok : ok = true := hiff.mpr fun k hk => by
    have hk : k < 2 := hk
    rw [show (4094 + k) / pgSize = 0 by rw [pgSize_eq]; omega]
    exact hw
  rw [hok] at hrun
  exact ⟨m, m', t, h, hrun, hin hok⟩

end Xv6.Vm
