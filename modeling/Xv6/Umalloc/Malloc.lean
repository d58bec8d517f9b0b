import Xv6.Proc.Growproc
import Xv6.Umalloc.Free

/-! `morecore` and `malloc` of `user/umalloc.c`. -/
namespace Xv6.Umalloc

open Lib

/-- `sys_sbrk`, as far as the size of the process goes: the old size is returned, and the new one is
that of `growproc`. The kernel has memory up to `limit`. -/
def sbrk (limit : ℕ) (n : BitVec 32) (brk : ℕ) : Option ℕ × ℕ :=
  if 0 < n.toInt then
    if Proc.addInt brk n ≤ limit then (some brk, Proc.addInt brk n) else (none, brk)
  else if n.toInt < 0 then
    (some brk, if Proc.addInt brk n ≥ brk then brk else Proc.addInt brk n)
  else (some brk, brk)

/-- Why a call does not return: the process is killed at a page fault, or a loop has not ended. -/
inductive Fault where
  | killed
  | running
  deriving DecidableEq

/-- `morecore`: `none` is a null pointer. The argument of `sbrk` is an `int`. -/
def morecore (fuel limit : ℕ) (s : Heap) (nu : ℕ) : Except Fault (Option Heap) :=
  let nu := if nu < 4096 then 4096 else nu
  match sbrk limit (BitVec.ofNat 32 (nu * unit)) s.brk with
  | (none, _) => .ok none
  | (some hp, brk) =>
    if hp + unit > (brk + 4095) / 4096 * 4096 then .error .killed
    else
      match free fuel { s with
          hdr := Function.update s.hdr hp ⟨(s.hdr hp).ptr, nu⟩, brk := brk } (hp + unit) with
      | none => .error .running
      | some s => .ok (some s)

/-- What is done with a block that is large enough: the pointer that is returned, and the heap. -/
def take (s : Heap) (nunits prevp p : ℕ) : ℕ × Heap :=
  if (s.hdr p).size = nunits then
    (p + unit, { s with
      hdr := Function.update s.hdr prevp ⟨(s.hdr p).ptr, (s.hdr prevp).size⟩, freep := prevp })
  else
    let rest := (s.hdr p).size - nunits
    let hdr := Function.update s.hdr p ⟨(s.hdr p).ptr, rest⟩
    let q := p + unit * rest
    (q + unit, { s with
      hdr := Function.update hdr q ⟨(hdr q).ptr, nunits⟩, freep := prevp })

/-- The loop of `malloc`: the pointer that it returns, and the heap. -/
def mallocLoop (fuel limit nunits : ℕ) : ℕ → Heap → ℕ → ℕ → Except Fault (ℕ × Heap)
  | 0, _, _, _ => .error .running
  | rounds + 1, s, prevp, p =>
    if (s.hdr p).size ≥ nunits then .ok (take s nunits prevp p)
    else if p = s.freep then
      match morecore fuel limit s nunits with
      | .error e => .error e
      | .ok none => .ok (0, s)
      | .ok (some s) => mallocLoop fuel limit nunits rounds s s.freep (s.hdr s.freep).ptr
    else mallocLoop fuel limit nunits rounds s p (s.hdr p).ptr

/-- The size of a request in units; `sizeof` makes it a 64-bit computation. -/
def units (nbytes : ℕ) : ℕ := (nbytes + unit - 1) / unit + 1

/-- The first call makes a list of `base`. -/
def start (base : ℕ) (s : Heap) : Heap :=
  if s.freep = 0 then { s with hdr := Function.update s.hdr base ⟨base, 0⟩, freep := base } else s

def malloc (base fuel limit : ℕ) (s : Heap) (nbytes : BitVec 32) : Except Fault (ℕ × Heap) :=
  let s := start base s
  mallocLoop fuel limit (units nbytes.toNat) fuel s s.freep (s.hdr s.freep).ptr

theorem morecore_mono {fuel fuel' limit nu : ℕ} {s : Heap} {r : Option Heap} (hle : fuel ≤ fuel')
    (h : morecore fuel limit s nu = .ok r) : morecore fuel' limit s nu = .ok r := by
  unfold morecore at h ⊢
  simp only at h ⊢
  generalize (if nu < 4096 then 4096 else nu) = nu at h ⊢
  obtain ⟨⟨hp, brk⟩, hsbrk⟩ : ∃ r, r = sbrk limit (BitVec.ofNat 32 (nu * unit)) s.brk := ⟨_, rfl⟩
  rw [← hsbrk] at h ⊢
  cases hp with
  | none => exact h
  | some hp =>
    simp only at h ⊢
    split_ifs at h ⊢ with hfault
    cases hfree : free fuel { s with
        hdr := Function.update s.hdr hp ⟨(s.hdr hp).ptr, nu⟩, brk := brk } (hp + unit) with
    | none =>
      rw [hfree] at h
      cases h
    | some s' =>
      rw [hfree] at h
      rw [free_mono hle hfree]
      exact h

theorem mallocLoop_mono {fuel fuel' limit nunits rounds rounds' prevp p : ℕ} {s : Heap}
    {r : ℕ × Heap} (hle : fuel ≤ fuel') (hle' : rounds ≤ rounds')
    (h : mallocLoop fuel limit nunits rounds s prevp p = .ok r) :
    mallocLoop fuel' limit nunits rounds' s prevp p = .ok r := by
  induction rounds generalizing s prevp p rounds' with
  | zero => cases h
  | succ rounds ih =>
    obtain ⟨rounds', rfl⟩ : ∃ n, rounds' = n + 1 := ⟨rounds' - 1, by omega⟩
    rw [mallocLoop] at h ⊢
    split_ifs at h ⊢
    · exact h
    · cases hcore : morecore fuel limit s nunits with
      | error e =>
        rw [hcore] at h
        cases h
      | ok core =>
        rw [hcore] at h
        rw [morecore_mono hle hcore]
        cases core with
        | none => exact h
        | some s₁ => exact ih (by omega) h
    · exact ih (by omega) h

/-- What taking `n` units off the list at `q` leaves. -/
structure Taken (base : ℕ) (s s' : Heap) (S S' : Finset ℕ) (q n : ℕ) : Prop where
  list : FreeList base s' S'
  block : Apart base s'.hdr S' q
  size : (s'.hdr q).size = n
  subset : S' ⊆ S
  covered : ∀ x, Covered s.hdr S x ↔ Covered s'.hdr S' x ∨ q ≤ x ∧ x < q + unit * n
  frame : ∀ a ∉ S, a ≠ q → s'.hdr a = s.hdr a
  brk : s'.brk = s.brk

variable {base fuel limit nunits prevp p : ℕ} {s : Heap} {S : Finset ℕ}

theorem FreeList.ne_of_size (h : FreeList base s S) (hprev : prevp ∈ S) (hp : (s.hdr prevp).ptr = p)
    (hsize : 0 < (s.hdr p).size) : p ∈ S ∧ base < p ∧ p ≠ prevp := by
  obtain ⟨hpS, hS⟩ := h.follows hprev
  rw [hp] at hpS hS
  have hbase : p ≠ base := fun heq => hsize.ne' ((h.size_eq_zero p hpS).mpr heq)
  have hle := h.base_le p hpS
  refine ⟨hpS, by omega, fun heq => ?_⟩
  have hbtw := hS base h.base_mem
  unfold Between at hbtw
  omega

theorem take_exact (h : FreeList base s S) (hprev : prevp ∈ S) (hp : (s.hdr prevp).ptr = p)
    (hn : 0 < nunits) (heq : (s.hdr p).size = nunits) :
    Taken base s (take s nunits prevp p).2 S (S.erase p) p nunits := by
  obtain ⟨hpS, hbase, hne⟩ := h.ne_of_size hprev hp (by omega)
  obtain ⟨s', hs'⟩ : ∃ s', s' = (take s nunits prevp p).2 := ⟨_, rfl⟩
  rw [← hs']
  rw [take, if_pos heq] at hs'
  have hfreep : s'.freep = prevp := by rw [hs']
  have hprev' : s'.hdr prevp = ⟨(s.hdr p).ptr, (s.hdr prevp).size⟩ := by
    rw [hs']
    exact Function.update_self _ _ _
  have hother : ∀ a, a ≠ prevp → s'.hdr a = s.hdr a := by
    intro a ha
    rw [hs']
    exact Function.update_of_ne ha _ _
  have hend : ∀ a, blockEnd s'.hdr a = blockEnd s.hdr a := by
    intro a
    by_cases ha : a = prevp
    · rw [blockEnd, ha, hprev', blockEnd]
    · rw [blockEnd, hother a ha, blockEnd]
  have hendp : blockEnd s.hdr p = p + unit * nunits := by rw [blockEnd, heq]
  constructor
  · refine ⟨h.unlink hprev hp hne hbase.ne' hprev' fun c _ hc => hother c hc,
      hfreep ▸ Finset.mem_erase.mpr ⟨hne.symm, hprev⟩, ?_⟩
    intro a ha b hb' hadj
    rw [hend] at hadj
    exact h.gap a (Finset.mem_of_mem_erase ha) b (Finset.mem_of_mem_erase hb') hadj
  · constructor
    · rw [hother p hne, heq]
      exact hn
    · exact hbase
    · intro a ha
      obtain ⟨hap, haS⟩ := Finset.mem_erase.mp ha
      rw [hend, hend]
      rcases Nat.lt_or_ge a p with hlt | hge
      · exact Or.inl (h.apart a haS p hpS hlt)
      · exact Or.inr (h.apart p hpS a haS (by omega)).2
    · rw [hend]
      exact h.below p hpS
  · rw [hother p hne, heq]
  · exact Finset.erase_subset p S
  · intro x
    constructor
    · rintro ⟨a, ha, hle, hlt⟩
      by_cases hap : a = p
      · rw [hap] at hle hlt
        exact Or.inr ⟨hle, by omega⟩
      · exact Or.inl ⟨a, Finset.mem_erase.mpr ⟨hap, ha⟩, hle, by rwa [hend]⟩
    · rintro (⟨a, ha, hle, hlt⟩ | ⟨hle, hlt⟩)
      · exact ⟨a, Finset.mem_of_mem_erase ha, hle, by rwa [hend] at hlt⟩
      · exact ⟨p, hpS, hle, by omega⟩
  · intro a ha _
    exact hother a fun hap => ha (hap ▸ hprev)
  · rw [hs']

theorem take_split (h : FreeList base s S) (hprev : prevp ∈ S) (hp : (s.hdr prevp).ptr = p)
    (hn : 0 < nunits) (hlt : nunits < (s.hdr p).size) :
    Taken base s (take s nunits prevp p).2 S S (p + unit * ((s.hdr p).size - nunits)) nunits := by
  obtain ⟨hpS, hbase, hne⟩ := h.ne_of_size hprev hp (by omega)
  obtain ⟨rest, hrest⟩ : ∃ rest, rest = (s.hdr p).size - nunits := ⟨_, rfl⟩
  obtain ⟨q, hq⟩ : ∃ q, q = p + unit * rest := ⟨_, rfl⟩
  obtain ⟨s', hs'⟩ : ∃ s', s' = (take s nunits prevp p).2 := ⟨_, rfl⟩
  rw [← hs', ← hrest, ← hq]
  rw [take, if_neg (by omega)] at hs'
  simp only [← hrest, ← hq] at hs'
  have hfreep : s'.freep = prevp := by rw [hs']
  have hendp : blockEnd s.hdr p = q + unit * nunits := by
    rw [blockEnd, hq, Nat.add_assoc, ← Nat.mul_add]
    congr 2
    omega
  have hpq : p + unit ≤ q := by
    rw [hq, unit]
    omega
  have hpos : 0 < unit * nunits := Nat.mul_pos unit_pos hn
  have hqS : q ∉ S := by
    intro hqS
    have := (h.apart p hpS q hqS (by rw [unit] at hpq; omega)).2
    omega
  have hne' : p ≠ q := fun heq => hqS (heq ▸ hpS)
  have hp' : s'.hdr p = ⟨(s.hdr p).ptr, rest⟩ := by
    rw [hs']
    simp only
    rw [Function.update_of_ne hne', Function.update_self]
  have hq' : (s'.hdr q).size = nunits := by
    rw [hs']
    simp only [Function.update_self]
  have hother : ∀ a, a ≠ p → a ≠ q → s'.hdr a = s.hdr a := by
    intro a hap haq
    rw [hs']
    simp only
    rw [Function.update_of_ne haq, Function.update_of_ne hap]
  have hendp' : blockEnd s'.hdr p = q := by rw [blockEnd, hp', hq]
  have hendq' : blockEnd s'.hdr q = q + unit * nunits := by rw [blockEnd, hq']
  have hend : ∀ a ∈ S, a ≠ p → blockEnd s'.hdr a = blockEnd s.hdr a := by
    intro a ha hap
    rw [blockEnd, hother a hap fun haq => hqS (haq ▸ ha), blockEnd]
  constructor
  · refine ⟨h.shrink (by omega) (by omega) hp' fun c hc hcp =>
      hother c hcp fun hcq => hqS (hcq ▸ hc), hfreep ▸ hprev, ?_⟩
    intro a ha b hb' hadj
    by_cases hap : a = p
    · rw [hap, hendp'] at hadj
      exact absurd (hadj ▸ hb') hqS
    · rw [hend a ha hap] at hadj
      exact h.gap a ha b hb' hadj
  · constructor
    · rw [hq']
      exact hn
    · omega
    · intro a ha
      by_cases hap : a = p
      · rw [hap, hendp']
        exact Or.inl ⟨hpq, le_rfl⟩
      · rw [hend a ha hap, hendq']
        rcases Nat.lt_or_ge a p with hlt' | hge
        · have := h.apart a ha p hpS hlt'
          exact Or.inl (by omega)
        · have := (h.apart p hpS a ha (by omega)).2
          exact Or.inr (by omega)
    · rw [hendq', ← hendp]
      exact h.below p hpS
  · exact hq'
  · exact subset_rfl
  · intro x
    constructor
    · rintro ⟨a, ha, hle, hlt'⟩
      by_cases hap : a = p
      · rw [hap] at hle hlt'
        rcases Nat.lt_or_ge x q with hx | hx
        · exact Or.inl ⟨p, hpS, hle, by rwa [hendp']⟩
        · exact Or.inr ⟨hx, by omega⟩
      · exact Or.inl ⟨a, ha, hle, by rwa [hend a ha hap]⟩
    · rintro (⟨a, ha, hle, hlt'⟩ | ⟨hle, hlt'⟩)
      · by_cases hap : a = p
        · rw [hap, hendp'] at hlt'
          exact ⟨p, hpS, by omega, by omega⟩
        · exact ⟨a, ha, hle, by rwa [hend a ha hap] at hlt'⟩
      · exact ⟨p, hpS, by omega, by omega⟩
  · intro a ha haq
    exact hother a (fun hap => ha (hap ▸ hpS)) haq
  · rw [hs']

/-- A block is taken whole, or its tail is split off. -/
theorem take_spec (h : FreeList base s S) (hprev : prevp ∈ S) (hp : (s.hdr prevp).ptr = p)
    (hn : 0 < nunits) (hle : nunits ≤ (s.hdr p).size) :
    ∃ S' q, (take s nunits prevp p).1 = q + unit ∧
      Taken base s (take s nunits prevp p).2 S S' q nunits := by
  rcases Nat.eq_or_lt_of_le hle with heq | hlt
  · refine ⟨_, p, ?_, take_exact h hprev hp hn heq.symm⟩
    rw [take, if_pos heq.symm]
  · refine ⟨S, _, ?_, take_split h hprev hp hn hlt⟩
    rw [take, if_neg (by omega)]

/-- The loop looks at the block after `prevp` in earnest: it is large enough, or the last one. -/
def Stops (s : Heap) (nunits prevp : ℕ) : Prop :=
  nunits ≤ (s.hdr (s.hdr prevp).ptr).size ∨ (s.hdr prevp).ptr = s.freep

theorem mallocLoop_walk {k rounds : ℕ} (hk : k < rounds)
    (h : Stops s nunits ((fun a => (s.hdr a).ptr)^[k] prevp)) :
    ∃ j ≤ k, Stops s nunits ((fun a => (s.hdr a).ptr)^[j] prevp) ∧
      (∀ i < j, ¬Stops s nunits ((fun a => (s.hdr a).ptr)^[i] prevp)) ∧
      mallocLoop fuel limit nunits rounds s prevp (s.hdr prevp).ptr =
        mallocLoop fuel limit nunits (rounds - j) s ((fun a => (s.hdr a).ptr)^[j] prevp)
          (s.hdr ((fun a => (s.hdr a).ptr)^[j] prevp)).ptr := by
  induction k generalizing prevp rounds with
  | zero => exact ⟨0, le_rfl, h, fun i hi => absurd hi (Nat.not_lt_zero i), rfl⟩
  | succ k ih =>
    by_cases hstop : Stops s nunits prevp
    · exact ⟨0, Nat.zero_le _, hstop, fun i hi => absurd hi (Nat.not_lt_zero i), rfl⟩
    · obtain ⟨rounds, rfl⟩ : ∃ n, rounds = n + 1 := ⟨rounds - 1, by omega⟩
      obtain ⟨j, hj, hs, hbefore, hrun⟩ := ih (show k < rounds by omega) h
      refine ⟨j + 1, by omega, hs, fun i hi => ?_, ?_⟩
      · cases i with
        | zero => exact hstop
        | succ i => exact hbefore i (by omega)
      rw [Stops, not_or] at hstop
      rw [mallocLoop, if_neg hstop.1, if_neg hstop.2, hrun, Nat.add_sub_add_right]
      rfl

theorem FreeList.exists_before (h : FreeList base s S) {q : ℕ} (hq : q ∈ S) :
    ∃ k < S.card, (s.hdr ((fun a => (s.hdr a).ptr)^[k] s.freep)).ptr = q := by
  have hcircles := circles_sort_iff.mpr h.ring
  have hmem : ∀ {a}, a ∈ S → a ∈ S.sort := fun ha => (Finset.mem_sort (· ≤ ·)).mpr ha
  obtain ⟨k, hk, hit⟩ := hcircles.reaches (hmem (h.follows h.mem).1) (hmem hq)
  rw [Finset.length_sort] at hk
  refine ⟨k, hk, ?_⟩
  rw [← hit]
  exact (Function.iterate_succ_apply' (fun a => (s.hdr a).ptr) k s.freep).symm

theorem FreeList.iterate_mem (h : FreeList base s S) (k : ℕ) :
    (fun a => (s.hdr a).ptr)^[k] s.freep ∈ S := by
  induction k with
  | zero => exact h.mem
  | succ k ih =>
    rw [Function.iterate_succ_apply']
    exact (h.follows ih).1

/-- The loop ends at a block that is large enough, or at the last one if none is. -/
theorem FreeList.mallocLoop_search (h : FreeList base s S) (fuel limit nunits : ℕ) {rounds : ℕ}
    (hr : S.card < rounds) :
    ∃ prevp ∈ S, ∃ rounds' ≥ rounds - S.card, (nunits ≤ (s.hdr (s.hdr prevp).ptr).size ∨
        (s.hdr prevp).ptr = s.freep ∧ ∀ a ∈ S, (s.hdr a).size < nunits) ∧
      mallocLoop fuel limit nunits rounds s s.freep (s.hdr s.freep).ptr =
        mallocLoop fuel limit nunits rounds' s prevp (s.hdr prevp).ptr := by
  obtain ⟨k, hk, hbefore⟩ := h.exists_before h.mem
  obtain ⟨j, hj, hstop, hskip, hrun⟩ := mallocLoop_walk (show k < rounds by omega) (Or.inr hbefore)
  refine ⟨_, h.iterate_mem j, rounds - j, by omega, ?_, hrun⟩
  rw [or_iff_not_imp_left, not_le]
  intro hsmall
  have hlast := hstop.resolve_left hsmall.not_ge
  -- all blocks have been looked at, because the next one is the first again
  have hall : ∀ i, (s.hdr ((fun a => (s.hdr a).ptr)^[i + 1] s.freep)).size < nunits := by
    intro i
    induction i using Nat.strong_induction_on with
    | _ i ih =>
      rcases lt_trichotomy i j with hlt | rfl | hgt
      · have := hskip i hlt
        rw [Stops, not_or, not_le] at this
        rw [Function.iterate_succ_apply']
        exact this.1
      · rw [Function.iterate_succ_apply']
        exact hsmall
      · have hwrap : (fun a => (s.hdr a).ptr)^[j + 1] s.freep = s.freep := by
          rw [Function.iterate_succ_apply']
          exact hlast
        rw [show i + 1 = i - (j + 1) + 1 + (j + 1) by omega, Function.iterate_add_apply, hwrap]
        exact ih _ (by omega)
  refine ⟨hlast, fun a ha => ?_⟩
  obtain ⟨i, -, hi⟩ := h.exists_before ha
  have := hall i
  rwa [Function.iterate_succ_apply', hi] at this

end Xv6.Umalloc
