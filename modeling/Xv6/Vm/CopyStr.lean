import Xv6.Vm.Copy

/-! `copyinstr` of `kernel/vm.c` and `fetchstr` of `kernel/syscall.c` through a page table. -/
namespace Xv6.Vm

open Lib Lib.Radix

/-- What `copyinstr` has done: the bytes that it has stored at `dst`, the pages that it has looked up,
and `false` for -1. -/
structure StrCopy where
  dst : List UInt8
  walked : List ℕ
  ok : Bool

def copyinstrBytesLoop (pagetable : ℕ) : ℕ → ℕ → ℕ → Kern StrCopy
  | 0, _, _ => return ⟨[], [], false⟩
  | fuel + 1, srcva, max =>
    if 0 < max then do
      let va0 := pgRoundDown srcva
      let pa0 ← walkaddr pagetable va0
      if pa0 = 0 then return ⟨[], [va0], false⟩
      else
        let n := min (pgSize - (srcva - va0)) max
        let (s, gotNull) := scanNul (← loadBytes pa0 (srcva - va0) n)
        if gotNull then return ⟨s ++ [0], [va0], true⟩
        else
          let rest ← copyinstrBytesLoop pagetable fuel ((va0 + pgSize) % 2 ^ 64) (max - n)
          return ⟨s ++ rest.dst, va0 :: rest.walked, rest.ok⟩
    else return ⟨[], [], false⟩

def copyinstrBytes (pagetable srcva max : ℕ) : Kern StrCopy :=
  copyinstrBytesLoop pagetable max srcva max

def strlen (s : List UInt8) : ℤ := (BitVec.ofNat 32 (s.takeWhile (· ≠ 0)).length).toInt

/-- `fetchstr` for the page table of the process; `max` becomes a `uint64`. -/
def fetchstrBytes (pagetable addr : ℕ) (max : BitVec 32) : Kern (ℤ × StrCopy) := do
  let r ← copyinstrBytes pagetable addr (max.signExtend 64).toNat
  if r.ok then return (strlen r.dst, r) else return (-1, r)

/-- The string at `va` has its NUL after `k` bytes, and all of it is in pages of the user. -/
structure Terminated (m : Kmem) (t : Table 2) (va k : ℕ) : Prop where
  nul : userByte m t (va + k) = 0
  first : ∀ i < k, userByte m t (va + i) ≠ 0
  pages : ∀ i ≤ k, UserPage t ((va + i) / pgSize)

variable {m : Kmem} {t : Table 2} {va k n max : ℕ} {f : ℕ → UInt8}

theorem scanNul_of_nul (hk : k < n) (h0 : f k = 0) (hfirst : ∀ i < k, f i ≠ 0) :
    scanNul ((List.range n).map f) = ((List.range k).map f, true) := by
  induction k generalizing n f with
  | zero =>
    obtain ⟨n, rfl⟩ := Nat.exists_eq_succ_of_ne_zero hk.ne'
    rw [List.range_succ_eq_map, List.map_cons, scanNul, if_pos h0]
    rfl
  | succ k ih =>
    obtain ⟨n, rfl⟩ := Nat.exists_eq_succ_of_ne_zero (Nat.ne_of_gt (Nat.zero_lt_of_lt hk))
    have hrest := ih (f := f ∘ Nat.succ) (Nat.lt_of_succ_lt_succ hk) h0 fun i hi =>
      hfirst (i + 1) (Nat.succ_lt_succ hi)
    rw [List.range_succ_eq_map, List.map_cons, List.map_map, scanNul, if_neg (hfirst 0 (Nat.succ_pos k)),
      hrest, List.range_succ_eq_map, List.map_cons, List.map_map]

theorem scanNul_of_ne (h : ∀ i < n, f i ≠ 0) :
    scanNul ((List.range n).map f) = ((List.range n).map f, false) := by
  induction n generalizing f with
  | zero => rfl
  | succ n ih =>
    have hrest := ih (f := f ∘ Nat.succ) fun i hi => h (i + 1) (Nat.succ_lt_succ hi)
    rw [List.range_succ_eq_map, List.map_cons, List.map_map, scanNul, if_neg (h 0 (Nat.succ_pos n)), hrest]

/-- What `copyinstr` does: it finds a string that is terminated within `max` bytes, and it does not
look up pages beyond a NUL. -/
structure Copied (m : Kmem) (t : Table 2) (va max : ℕ) (r : StrCopy) : Prop where
  length_le : r.dst.length ≤ max
  ok_iff : r.ok = true ↔ ∃ k < max, Terminated m t va k
  dst : ∀ k < max, Terminated m t va k → r.dst = (List.range (k + 1)).map fun i => userByte m t (va + i)
  walked : ∀ k, UserPage t ((va + k) / pgSize) → userByte m t (va + k) = 0 →
    ∀ a ∈ r.walked, a / pgSize ≤ (va + k) / pgSize

theorem Terminated.unique {k' : ℕ} (h : Terminated m t va k) (h' : Terminated m t va k') : k = k' := by
  rcases lt_trichotomy k k' with hlt | heq | hlt
  · exact absurd h.nul (h'.first k hlt)
  · exact heq
  · exact absurd h'.nul (h.first k' hlt)

theorem Copied.zero (m : Kmem) (t : Table 2) (va : ℕ) : Copied m t va 0 ⟨[], [], false⟩ where
  length_le := le_rfl
  ok_iff := ⟨fun h => (by cases h), fun ⟨_, hk, _⟩ => absurd hk (Nat.not_lt_zero _)⟩
  dst _ hk := absurd hk (Nat.not_lt_zero _)
  walked _ _ _ _ ha := absurd ha List.not_mem_nil

theorem Copied.refused (h : ¬UserPage t (va / pgSize)) :
    Copied m t va max ⟨[], [pgRoundDown va], false⟩ where
  length_le := Nat.zero_le _
  ok_iff := ⟨fun hok => (by cases hok), fun ⟨_, _, ht⟩ => absurd (ht.pages 0 (Nat.zero_le _)) h⟩
  dst _ _ ht := absurd (ht.pages 0 (Nat.zero_le _)) h
  walked k _ _ a ha := by
    rw [List.mem_singleton.mp ha, pgRoundDown_div]
    exact Nat.div_le_div_right (Nat.le_add_right va k)

theorem Copied.found (ht : Terminated m t va k) (hk : k < max) :
    Copied m t va max
      ⟨((List.range k).map fun i => userByte m t (va + i)) ++ [0], [pgRoundDown va], true⟩ where
  length_le := by
    rw [List.length_append, List.length_map, List.length_range]
    exact hk
  ok_iff := ⟨fun _ => ⟨k, hk, ht⟩, fun _ => rfl⟩
  dst k' _ ht' := by
    obtain rfl := ht.unique ht'
    rw [List.range_succ, List.map_append, List.map_singleton, ht.nul]
  walked k _ _ a ha := by
    rw [List.mem_singleton.mp ha, pgRoundDown_div]
    exact Nat.div_le_div_right (Nat.le_add_right va k)

theorem terminated_add_iff (hpages : ∀ i < n, UserPage t ((va + i) / pgSize))
    (hne : ∀ i < n, userByte m t (va + i) ≠ 0) :
    Terminated m t va (n + k) ↔ Terminated m t (va + n) k := by
  constructor
  · intro h
    refine ⟨by rw [Nat.add_assoc]; exact h.nul, fun i hi => ?_, fun i hi => ?_⟩
    · rw [Nat.add_assoc]
      exact h.first _ (by omega)
    · rw [Nat.add_assoc]
      exact h.pages _ (by omega)
  · intro h
    refine ⟨by rw [← Nat.add_assoc]; exact h.nul, fun i hi => ?_, fun i hi => ?_⟩
    · by_cases hin : i < n
      · exact hne i hin
      · have := h.first (i - n) (by omega)
        rwa [show va + n + (i - n) = va + i by omega] at this
    · by_cases hin : i < n
      · exact hpages i hin
      · have := h.pages (i - n) (by omega)
        rwa [show va + n + (i - n) = va + i by omega] at this

theorem Copied.add {r : StrCopy} (h : Copied m t (va + n) (max - n) r) (hn : n ≤ max)
    (hpages : ∀ i < n, UserPage t ((va + i) / pgSize)) (hne : ∀ i < n, userByte m t (va + i) ≠ 0) :
    Copied m t va max ⟨((List.range n).map fun i => userByte m t (va + i)) ++ r.dst,
      pgRoundDown va :: r.walked, r.ok⟩ := by
  have hge : ∀ k, Terminated m t va k → n ≤ k := fun k ht => by
    by_contra hlt
    exact hne k (by omega) ht.nul
  refine ⟨?_, ?_, fun k hk ht => ?_, fun k hu h0 a ha => ?_⟩
  · have := h.length_le
    rw [List.length_append, List.length_map, List.length_range]
    omega
  · rw [h.ok_iff]
    constructor
    · rintro ⟨k, hk, ht⟩
      exact ⟨n + k, by omega, (terminated_add_iff hpages hne).mpr ht⟩
    · rintro ⟨k, hk, ht⟩
      have := hge k ht
      refine ⟨k - n, by omega, (terminated_add_iff hpages hne).mp ?_⟩
      rwa [Nat.add_sub_cancel' this]
  · obtain ⟨j, rfl⟩ := Nat.exists_eq_add_of_le (hge k ht)
    have hsplit : List.range (n + (j + 1)) = List.range n ++ (List.range (j + 1)).map (n + ·) :=
      List.range_add ..
    rw [h.dst j (by omega) ((terminated_add_iff hpages hne).mp ht), Nat.add_assoc n j 1, hsplit,
      List.map_append, List.map_map]
    simp only [Function.comp_def, Nat.add_assoc]
  · rcases List.mem_cons.mp ha with rfl | ha
    · rw [pgRoundDown_div]
      exact Nat.div_le_div_right (Nat.le_add_right va k)
    · have hnk : n ≤ k := by
        by_contra hlt
        exact hne k (by omega) h0
      obtain ⟨j, rfl⟩ := Nat.exists_eq_add_of_le hnk
      rw [← Nat.add_assoc] at hu h0 ⊢
      exact h.walked j hu h0 a ha

theorem copyinstrBytesLoop_zero (pagetable fuel srcva : ℕ) :
    copyinstrBytesLoop pagetable fuel srcva 0 m = .ok (⟨[], [], false⟩, m) := by
  cases fuel with
  | zero => rfl
  | succ fuel => rfl

theorem copyinstrBytesLoop_eq (h : UserMapped m t) {fuel : ℕ} (hfuel : max ≤ fuel) (va : ℕ) :
    ∃ r, Copied m t va max r ∧ copyinstrBytesLoop t.label fuel va max m = .ok (r, m) := by
  induction fuel generalizing va max with
  | zero =>
    obtain rfl : max = 0 := by omega
    exact ⟨_, Copied.zero m t va, rfl⟩
  | succ fuel ih =>
    by_cases hmax : 0 < max
    swap
    · obtain rfl : max = 0 := by omega
      exact ⟨_, Copied.zero m t va, rfl⟩
    obtain ⟨pa, hwalk, hzero, hpa⟩ := walkaddr_page h va
    rw [copyinstrBytesLoop, if_pos hmax, bind_of_ok hwalk]
    by_cases h0 : pa = 0
    · rw [if_pos h0]
      exact ⟨_, Copied.refused (hzero.mp h0), rfl⟩
    have hpage : UserPage t (va / pgSize) := not_not.mp (mt hzero.mpr h0)
    have hmod := Nat.mod_lt va (show 0 < pgSize by decide)
    obtain ⟨n, hn⟩ : ∃ n, n = min (pgSize - va % pgSize) max := ⟨_, rfl⟩
    have hload : loadBytes pa (va % pgSize) n m =
        .ok ((List.range n).map fun k => userByte m t (va + k), m) := by
      rw [loadBytes, hpa h0, slice_userByte (by omega)]
    have hpages : ∀ i < n, UserPage t ((va + i) / pgSize) := fun i hi => by
      have hdiv : (va + i) / pgSize = va / pgSize := by
        rw [pgSize_eq] at *
        omega
      rwa [hdiv]
    rw [if_neg h0]
    simp only [sub_pgRoundDown]
    rw [← hn, bind_of_ok hload]
    by_cases hnul : ∃ k < n, userByte m t (va + k) = 0
    · -- the first NUL ends the loop
      have hk := Nat.find_spec hnul
      have hfirst : ∀ i < Nat.find hnul, userByte m t (va + i) ≠ 0 := fun i hi hc =>
        Nat.find_min hnul hi ⟨hi.trans hk.1, hc⟩
      rw [scanNul_of_nul hk.1 hk.2 hfirst]
      exact ⟨_, Copied.found ⟨hk.2, hfirst, fun i hi => hpages i (by omega)⟩ (by omega), rfl⟩
    · have hne : ∀ i < n, userByte m t (va + i) ≠ 0 := fun i hi hc => hnul ⟨i, hi, hc⟩
      rw [scanNul_of_ne hne]
      obtain ⟨r, hr, hrun⟩ : ∃ r, Copied m t (va + n) (max - n) r ∧
          copyinstrBytesLoop t.label fuel ((pgRoundDown va + pgSize) % 2 ^ 64) (max - n) m =
            .ok (r, m) := by
        rcases next_page max hpage.lt with hnext | hdone
        · rw [hnext, ← hn]
          exact ih (by omega) (va + n)
        · rw [← hn] at hdone
          rw [hdone, copyinstrBytesLoop_zero]
          exact ⟨_, Copied.zero m t _, rfl⟩
      refine ⟨_, hr.add (by omega) hpages hne, ?_⟩
      simp only [Bool.false_eq_true, if_false]
      rw [bind_of_ok hrun]
      rfl

theorem copyinstrBytesLoop_fuel (pagetable : ℕ) {fuel fuel' : ℕ} (hfuel : max ≤ fuel)
    (hfuel' : max ≤ fuel') (va : ℕ) :
    copyinstrBytesLoop pagetable fuel va max = copyinstrBytesLoop pagetable fuel' va max := by
  have hzero : ∀ fuel va, copyinstrBytesLoop pagetable fuel va 0 = pure ⟨[], [], false⟩ :=
    fun fuel va => funext fun m => copyinstrBytesLoop_zero pagetable fuel va
  induction fuel generalizing fuel' va max with
  | zero =>
    obtain rfl : max = 0 := by omega
    rw [hzero, hzero]
  | succ fuel ih =>
    cases fuel' with
    | zero =>
      obtain rfl : max = 0 := by omega
      rw [hzero, hzero]
    | succ fuel' =>
      have hmod := Nat.mod_lt va (show 0 < pgSize by decide)
      have hrest := fun hmax : 0 < max => ih
        (show max - min (pgSize - va % pgSize) max ≤ fuel by omega)
        (show max - min (pgSize - va % pgSize) max ≤ fuel' by omega)
        ((pgRoundDown va + pgSize) % 2 ^ 64)
      rw [copyinstrBytesLoop, copyinstrBytesLoop]
      by_cases hmax : 0 < max
      · simp only [if_pos hmax, sub_pgRoundDown, hrest hmax]
      · simp only [if_neg hmax]

theorem strlen_eq (h0 : f k = 0) (hfirst : ∀ i < k, f i ≠ 0) :
    strlen ((List.range (k + 1)).map f) = (BitVec.ofNat 32 k).toInt := by
  have htake : ((List.range (k + 1)).map f).takeWhile (· ≠ 0) = (List.range k).map f := by
    rw [List.range_succ, List.map_append, List.takeWhile_append_of_pos, List.map_singleton,
      List.takeWhile_cons_of_neg (by simpa using h0), List.append_nil]
    intro x hx
    obtain ⟨i, hi, rfl⟩ := List.mem_map.mp hx
    simpa using hfirst i (List.mem_range.mp hi)
  rw [strlen, htake, List.length_map, List.length_range]

theorem lt_of_signExtend {max : BitVec 32} (hmax : 0 ≤ max.toInt)
    (hk : k < (max.signExtend 64).toNat) : k < 2 ^ 31 := by
  have hmsb : max.msb = false := by
    rw [BitVec.msb_eq_toInt]
    simpa using hmax
  rw [BitVec.signExtend_eq_setWidth_of_msb_false hmsb, BitVec.toNat_setWidth] at hk
  rw [BitVec.toInt_eq_toNat_cond] at hmax
  split_ifs at hmax <;> omega

theorem toInt_ofNat_of_lt (h : k < 2 ^ 31) : (BitVec.ofNat 32 k).toInt = k := by
  have hk : k % 2 ^ 32 = k := Nat.mod_eq_of_lt (by omega)
  rw [BitVec.toInt_eq_toNat_of_lt, BitVec.toNat_ofNat, hk]
  rw [BitVec.toNat_ofNat, hk]
  omega

theorem fetchstrBytes_eq (h : UserMapped m t) (va : ℕ) (max : BitVec 32) :
    ∃ x r, fetchstrBytes t.label va max m = .ok ((x, r), m) ∧
      Copied m t va (max.signExtend 64).toNat r ∧
      (∀ k < (max.signExtend 64).toNat, Terminated m t va k →
        x = (BitVec.ofNat 32 k).toInt ∧ (0 ≤ max.toInt → x = k)) ∧
      ((∀ k < (max.signExtend 64).toNat, ¬Terminated m t va k) → x = -1) := by
  obtain ⟨r, hr, hrun⟩ := copyinstrBytesLoop_eq h (le_refl (max.signExtend 64).toNat) va
  have hcopy : copyinstrBytes t.label va (max.signExtend 64).toNat m = .ok (r, m) := hrun
  rw [fetchstrBytes, bind_of_ok hcopy]
  by_cases hok : r.ok = true
  · rw [if_pos hok]
    refine ⟨_, r, rfl, hr, fun k hk ht => ?_, fun hno => ?_⟩
    · have hlen : strlen r.dst = (BitVec.ofNat 32 k).toInt := by
        rw [hr.dst k hk ht]
        exact strlen_eq ht.nul ht.first
      refine ⟨hlen, fun hmax => ?_⟩
      rw [hlen, toInt_ofNat_of_lt (lt_of_signExtend hmax hk)]
    · obtain ⟨k, hk, ht⟩ := hr.ok_iff.mp hok
      exact absurd ht (hno k hk)
  · rw [if_neg hok]
    refine ⟨_, r, rfl, hr, fun k hk ht => ?_, fun _ => rfl⟩
    exact absurd (hr.ok_iff.mpr ⟨k, hk, ht⟩) hok

/-- `copyinstr` accepts the strings that are terminated, and `fetchstr` returns their length. -/
theorem copyinstr_exact (h : UserMapped m t) (va : ℕ) :
    (∀ max, ∃ r, copyinstrBytes t.label va max m = .ok (r, m) ∧ Copied m t va max r ∧
      ∀ fuel, max ≤ fuel →
        copyinstrBytesLoop t.label fuel va max m = copyinstrBytes t.label va max m) ∧
    ∀ max : BitVec 32, ∃ x r, fetchstrBytes t.label va max m = .ok ((x, r), m) ∧
      Copied m t va (max.signExtend 64).toNat r ∧
      (∀ k < (max.signExtend 64).toNat, Terminated m t va k →
        x = (BitVec.ofNat 32 k).toInt ∧ (0 ≤ max.toInt → x = k)) ∧
      ((∀ k < (max.signExtend 64).toNat, ¬Terminated m t va k) → x = -1) := by
  refine ⟨fun max => ?_, fetchstrBytes_eq h va⟩
  obtain ⟨r, hr, hrun⟩ := copyinstrBytesLoop_eq h (le_refl max) va
  refine ⟨r, hrun, hr, fun fuel hfuel => ?_⟩
  rw [copyinstrBytes, copyinstrBytesLoop_fuel t.label hfuel le_rfl va]

theorem copyinstr_exact_empty : ∃ (m : Kmem) (t : Table 2) (r : StrCopy), UserMapped m t ∧
    copyinstrBytes t.label 7 10 m = .ok (r, m) ∧ r.ok = true ∧ r.dst = [0] := by
  obtain ⟨m, t, hu⟩ := exists_uvm_one (show 0x80022000 < 2 ^ 64 by decide)
  have h := (UserTable.of_uvm hu).toUserMapped
  have hflags : ∀ x < 1024, t.find 0 0 &&& x = (pteR ||| pteU ||| pteW ||| pteV) &&& x :=
    fun x hx => hu.and_flags (by decide) hx
  have ht : Terminated m t 7 0 := by
    refine ⟨?_, fun i hi => absurd hi (Nat.not_lt_zero i), fun i hi => ?_⟩
    · show (m.page (pte2pa (t.find 0 0))).get 7 = 0
      rw [hu.page 0 (by decide)]
      rfl
    · obtain rfl : i = 0 := by omega
      show UserPage t 0
      refine ⟨by decide, ?_, ?_⟩ <;> rw [hflags _ (by decide)] <;> decide
  obtain ⟨r, hrun, hr, -⟩ := (copyinstr_exact h 7).1 10
  refine ⟨m, t, r, h, hrun, hr.ok_iff.mpr ⟨0, by decide, ht⟩, ?_⟩
  rw [hr.dst 0 (by decide) ht, List.range_one, List.map_singleton, ht.nul]

/-! The user memory of `Vm.UserMem` in a page table. -/

/-- The pages of the user in the table `t`, and physical memory. -/
def userMem (m : Kmem) (t : Table 2) (sz : ℕ) : UserMem where
  walkaddr va :=
    if va < maxVa ∧ t.find 0 (va / pgSize) &&& pteV ≠ 0 ∧ t.find 0 (va / pgSize) &&& pteU ≠ 0 then
      pte2pa (t.find 0 (va / pgSize))
    else 0
  mem a := (m.page (pgRoundDown a)).get (a % pgSize)
  sz := sz

theorem walkaddr_userMem (h : UserMapped m t) (sz va : ℕ) :
    walkaddr t.label va m = .ok ((userMem m t sz).walkaddr va, m) := walkaddr_eq va h.rep

theorem pte2pa_aligned (x : ℕ) : pte2pa x % pgSize = 0 := by
  rw [pte2pa, Nat.shiftLeft_eq, pgSize_eq]
  omega

theorem walkaddr_aligned (m : Kmem) (t : Table 2) (sz va : ℕ) :
    (userMem m t sz).walkaddr va % pgSize = 0 := by
  unfold userMem
  dsimp only
  split_ifs
  · exact pte2pa_aligned _
  · rfl

theorem bytes_userMem (sz : ℕ) {pa off : ℕ} (hpa : pa % pgSize = 0) (hn : off + n ≤ pgSize) :
    (userMem m t sz).bytes (pa + off) n = (m.page pa).slice off n := by
  rw [UserMem.bytes_eq_map]
  apply List.map_congr_left
  intro k hk
  rw [List.mem_range] at hk
  have hdown : pgRoundDown (pa + off + k) = pa := by
    rw [pgRoundDown]
    rw [pgSize_eq] at *
    omega
  have hmod : (pa + off + k) % pgSize = off + k := by
    rw [pgSize_eq] at *
    omega
  show (m.page (pgRoundDown (pa + off + k))).get _ = _
  rw [hdown, hmod]

theorem lt_of_walkaddr {sz : ℕ} (h : (userMem m t sz).walkaddr va ≠ 0) : va < maxVa := by
  by_contra hc
  exact h (if_neg fun hu => hc hu.1)

/-- `copyin` of user memory is the one through the page table. -/
theorem copyinBytes_userMem (h : UserMapped m t) (sz va len : ℕ) :
    copyinBytes t.label va len m = .ok (copyin (userMem m t sz) va len, m) := by
  have hloop : ∀ fuel va len, copyinBytesLoop t.label fuel va len m =
      .ok (copyinLoop (userMem m t sz) fuel va len, m) := by
    intro fuel
    induction fuel with
    | zero => exact fun _ _ => rfl
    | succ fuel ih =>
      intro va len
      have hmod := Nat.mod_lt va (show 0 < pgSize by decide)
      rw [copyinBytesLoop, copyinLoop]
      by_cases hlen : 0 < len
      swap
      · rw [if_neg hlen, if_pos (by omega)]
        rfl
      rw [if_pos hlen, if_neg hlen.ne', bind_of_ok (walkaddr_userMem h sz (pgRoundDown va))]
      by_cases hpa : (userMem m t sz).walkaddr (pgRoundDown va) = 0
      · rw [if_pos hpa]
        simp only [if_pos hpa]
        rfl
      · have hnext : (pgRoundDown va + pgSize) % 2 ^ 64 = pgRoundDown va + pgSize := by
          have := lt_of_walkaddr hpa
          unfold maxVa at this
          rw [pgSize_eq]
          omega
        have hbytes := bytes_userMem (m := m) (t := t) sz (walkaddr_aligned m t sz (pgRoundDown va))
          (show va % pgSize + min (pgSize - va % pgSize) len ≤ pgSize by omega)
        rw [if_neg hpa]
        simp only [if_neg hpa, hnext, sub_pgRoundDown, hbytes]
        rw [bind_of_ok rfl, bind_of_ok (ih _ _)]
        rfl
  exact hloop len va len

theorem copyinBytes_userMem_one : ∃ (m : Kmem) (t : Table 2), UserMapped m t ∧
    copyinBytes t.label 4094 9 m = .ok (copyin (userMem m t 4096) 4094 9, m) := by
  obtain ⟨m, t, hu⟩ := exists_uvm_one (show 0x80022000 < 2 ^ 64 by decide)
  have h := (UserTable.of_uvm hu).toUserMapped
  exact ⟨m, t, h, copyinBytes_userMem h 4096 4094 9⟩

def StrCopy.Is (r : StrCopy) : Option (List UInt8) → Prop
  | none => r.ok = false
  | some s => r.ok = true ∧ r.dst = s ++ [0]

theorem StrCopy.Is.append {r : StrCopy} {x : Option (List UInt8)} (h : r.Is x) (s : List UInt8)
    (walked : List ℕ) : StrCopy.Is ⟨s ++ r.dst, walked, r.ok⟩ (x.map (s ++ ·)) := by
  cases x with
  | none => exact h
  | some s' => exact ⟨h.1, by rw [h.2, List.append_assoc]⟩

/-- `copyinstr` of user memory is the one through the page table. -/
theorem copyinstrBytes_userMem (h : UserMapped m t) (sz va max : ℕ) :
    ∃ r, copyinstrBytes t.label va max m = .ok (r, m) ∧ r.Is (copyinstr (userMem m t sz) va max) := by
  have hloop : ∀ fuel va max, ∃ r, copyinstrBytesLoop t.label fuel va max m = .ok (r, m) ∧
      r.Is (copyinstrLoop (userMem m t sz) fuel va max) := by
    intro fuel
    induction fuel with
    | zero => exact fun _ _ => ⟨_, rfl, rfl⟩
    | succ fuel ih =>
      intro va max
      have hmod := Nat.mod_lt va (show 0 < pgSize by decide)
      rw [copyinstrBytesLoop, copyinstrLoop]
      by_cases hmax : 0 < max
      swap
      · rw [if_neg hmax, if_pos (by omega)]
        exact ⟨_, rfl, rfl⟩
      rw [if_pos hmax, if_neg hmax.ne', bind_of_ok (walkaddr_userMem h sz (pgRoundDown va))]
      by_cases hpa : (userMem m t sz).walkaddr (pgRoundDown va) = 0
      · rw [if_pos hpa]
        simp only [if_pos hpa]
        exact ⟨_, rfl, rfl⟩
      · have hnext : (pgRoundDown va + pgSize) % 2 ^ 64 = pgRoundDown va + pgSize := by
          have := lt_of_walkaddr hpa
          unfold maxVa at this
          rw [pgSize_eq]
          omega
        have hbytes := bytes_userMem (m := m) (t := t) sz (walkaddr_aligned m t sz (pgRoundDown va))
          (show va % pgSize + min (pgSize - va % pgSize) max ≤ pgSize by omega)
        rw [if_neg hpa]
        simp only [if_neg hpa, hnext, sub_pgRoundDown, hbytes]
        rw [bind_of_ok rfl]
        generalize scanNul _ = sg
        obtain ⟨s, got⟩ := sg
        cases got with
        | true => exact ⟨_, rfl, rfl, rfl⟩
        | false =>
          obtain ⟨r, hrun, hr⟩ := ih (pgRoundDown va + pgSize)
            (max - min (pgSize - va % pgSize) max)
          simp only [Bool.false_eq_true, if_false]
          rw [bind_of_ok hrun]
          exact ⟨_, rfl, hr.append s _⟩
  exact hloop max va max

theorem copyinstrBytes_userMem_one : ∃ (m : Kmem) (t : Table 2) (r : StrCopy), UserMapped m t ∧
    copyinstrBytes t.label 7 10 m = .ok (r, m) ∧ r.Is (copyinstr (userMem m t 4096) 7 10) := by
  obtain ⟨m, t, hu⟩ := exists_uvm_one (show 0x80022000 < 2 ^ 64 by decide)
  have h := (UserTable.of_uvm hu).toUserMapped
  obtain ⟨r, hr⟩ := copyinstrBytes_userMem h 4096 7 10
  exact ⟨m, t, r, h, hr⟩

end Xv6.Vm
