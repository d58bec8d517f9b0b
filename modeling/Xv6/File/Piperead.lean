import Xv6.Sched.PipeStream
import Xv6.Vm.Copy

/-! `piperead` of `kernel/pipe.c` with its copies to user memory. -/
namespace Xv6.File

open Lib Vm Sched

/-- The copying loop of `piperead` with `k` rounds to go: `i` and the pipe in the end. -/
def pipereadCopy (pagetable addr : ℕ) : ℕ → ℕ → Pipe → Kern (ℕ × Pipe)
  | 0, i, pi => return (i, pi)
  | k + 1, i, pi =>
    if pi.Empty then return (i, pi)
    else do
      let ch := pi.data (Pipe.slot pi.nread)
      let pi := pi.fetch
      if ← copyoutBytes pagetable ((addr + i) % 2 ^ 64) [ch] then
        pipereadCopy pagetable addr k (i + 1) pi
      else return (i, pi)

/-- `piperead`; `seen` is the pipe at each test of the loop that waits, and whether the process has
been killed by then. The result is what is returned and the pipe at that time, or `none` if the
process still waits. -/
def piperead (pagetable addr : ℕ) (n : BitVec 32) : List (Pipe × Bool) → Kern (Option (ℤ × Pipe))
  | [] => return none
  | (pi, killed) :: seen =>
    if pi.Empty ∧ pi.writeopen = true then
      if killed then return some (-1, pi) else piperead pagetable addr n seen
    else do
      let (i, pi) ← pipereadCopy pagetable addr n.toInt.toNat 0 pi
      return some (i, pi)

/-- The pipe from which `piperead` takes bytes, if it does. -/
def waited : List (Pipe × Bool) → Option Pipe
  | [] => none
  | (pi, killed) :: seen =>
    if pi.Empty ∧ pi.writeopen = true then if killed then none else waited seen else some pi

/-- `r` bytes have been removed from the pipe and stored at `addr`, and nothing else. -/
structure Delivered (t : Table 2) (m m' : Kmem) (addr : ℕ) (pi pi' : Pipe) (r : ℕ) : Prop where
  le : r ≤ pi.buffered.length
  removed : pi'.buffered = pi.buffered.drop r
  stored : Stored t m m' addr (pi.buffered.take r)

variable {m m' m₁ : Kmem} {t : Table 2} {addr k i r j : ℕ} {n : BitVec 32} {pi pi' : Pipe}
  {seen : List (Pipe × Bool)} {ch : UInt8}

theorem buffered_fetch (h : ¬pi.Empty) :
    pi.buffered = pi.data (Pipe.slot pi.nread) :: pi.fetch.buffered := by
  rw [Pipe.buffered, Ring.window_pop h, Pipe.ring_slot]
  rfl

theorem buffered_empty (h : pi.Empty) : pi.buffered = [] := by
  rw [Pipe.buffered, h, Ring.window_self]

theorem Extent.succ {P : ℕ → Prop} {va len : ℕ} (h : Extent P (va + 1) len j) (hP : P (va / pgSize)) :
    Extent P va (len + 1) (j + 1) := by
  rw [Nat.add_comm j 1]
  refine Extent.add (by rwa [Nat.add_sub_cancel]) (by omega) ?_ hP
  have := Nat.mod_lt va (show 0 < pgSize by decide)
  omega

/-- The loop stops after a byte that it could not copy, and that byte is gone as well. -/
theorem pipereadCopy_eq (h : UserTable m t) (haddr : addr + i < 2 ^ 64) (k : ℕ) (pi : Pipe) :
    ∃ r pi' m', pipereadCopy t.label addr k i pi m = .ok ((i + r, pi'), m') ∧
      Extent (UserWritable t) (addr + i) (min k pi.buffered.length) r ∧
      Stored t m m' (addr + i) (pi.buffered.take r) ∧
      pi'.buffered = pi.buffered.drop (if r = min k pi.buffered.length then r else r + 1) := by
  induction k generalizing i pi m with
  | zero =>
    refine ⟨0, pi, m, rfl, ?_, Stored.nil t m _, ?_⟩
    · rw [Nat.zero_min]
      exact Extent.zero _ _
    · rw [Nat.zero_min, if_pos rfl, List.drop_zero]
  | succ k ih =>
    by_cases hempty : pi.Empty
    · have hnil := buffered_empty hempty
      refine ⟨0, pi, m, ?_, ?_, Stored.nil t m _, ?_⟩
      · rw [pipereadCopy, if_pos hempty]
        rfl
      · rw [hnil, List.length_nil, Nat.min_zero]
        exact Extent.zero _ _
      · rw [hnil, List.length_nil, Nat.min_zero, if_pos rfl, List.drop_zero]
    have hcons := buffered_fetch hempty
    have hmin : min (k + 1) pi.buffered.length = min k pi.fetch.buffered.length + 1 := by
      rw [hcons, List.length_cons]
      omega
    rw [hmin, pipereadCopy, if_neg hempty, Nat.mod_eq_of_lt haddr]
    rcases copyoutBytes_byte h (addr + i) (pi.data (Pipe.slot pi.nread)) with
      ⟨hw, m₁, hrun, hs, h₁⟩ | ⟨hw, hrun⟩
    · have hnext : addr + (i + 1) < 2 ^ 64 := by
        have hlt := hw.lt
        rw [maxVa_div, pgSize_eq] at hlt
        omega
      obtain ⟨r, pi', m', hrest, hext, hs', hpi⟩ := ih h₁ hnext pi.fetch
      rw [← Nat.add_assoc] at hext hs'
      have hext' := Extent.succ hext hw
      refine ⟨r + 1, pi', m', ?_, hext', ?_, ?_⟩
      · simp only [bind_of_ok hrun, if_true, hrest]
        rw [Nat.add_assoc, Nat.add_comm 1 r]
      · rw [hcons, List.take_succ_cons]
        refine hs.append h hs' fun a ha => (hext'.inside a ?_).toUserPage
        rw [List.length_singleton, List.length_take] at ha
        omega
      · rw [hpi, hcons]
        by_cases hr : r = min k pi.fetch.buffered.length
        · rw [if_pos hr, if_pos (by omega), List.drop_succ_cons]
        · rw [if_neg hr, if_neg (by omega), List.drop_succ_cons]
    · refine ⟨0, pi.fetch, m, ?_, Extent.none hw, Stored.nil t m _, ?_⟩
      · rw [bind_of_ok hrun]
        rfl
      · rw [if_neg (by omega), hcons, List.drop_succ_cons, List.drop_zero]

theorem piperead_of_waited (hpi : waited seen = some pi) : piperead t.label addr n seen = (do
    let (i, pi) ← pipereadCopy t.label addr n.toInt.toNat 0 pi
    return some (i, pi)) := by
  induction seen with
  | nil => cases hpi
  | cons s seen ih =>
    obtain ⟨pi₀, killed⟩ := s
    rw [waited] at hpi
    rw [piperead]
    split_ifs at hpi ⊢ with hwait hkill
    · exact ih hpi
    · rw [Option.some.inj hpi]

theorem piperead_of_not_waited (hpi : waited seen = none) :
    ∃ r, piperead t.label addr n seen m = .ok (r, m) ∧ ∀ x, r = some x → x.1 = -1 := by
  induction seen with
  | nil => exact ⟨none, rfl, fun _ h => (by cases h)⟩
  | cons s seen ih =>
    obtain ⟨pi₀, killed⟩ := s
    rw [waited] at hpi
    rw [piperead]
    split_ifs at hpi ⊢ with hwait hkill
    · exact ⟨some (-1, pi₀), rfl, fun x hx => by rw [← Option.some.inj hx]⟩
    · exact ih hpi

/-- `piperead` takes from the pipe what it delivers, if no byte that it takes is for a page that the
user cannot write. -/
theorem piperead_exact_iff (h : UserTable m t) (haddr : addr < 2 ^ 64) (n : BitVec 32)
    (seen : List (Pipe × Bool)) :
    (∀ r pi' m', piperead t.label addr n seen m = .ok (some (r, pi'), m') → 0 ≤ r →
      ∃ pi, waited seen = some pi ∧ Delivered t m m' addr pi pi' r.toNat) ↔
    ∀ pi, waited seen = some pi → ∀ k : ℕ, k < n.toInt → k < pi.buffered.length →
      UserWritable t ((addr + k) / pgSize) := by
  cases hpi : waited seen with
  | none =>
    obtain ⟨x, hrun, hx⟩ : ∃ x, piperead t.label addr n seen m = .ok (x, m) ∧
        ∀ y, x = some y → y.1 = -1 := piperead_of_not_waited hpi
    refine ⟨fun _ pi hsome => (by cases hsome), fun _ r pi' m' hret hr => ?_⟩
    rw [hrun, Except.ok.injEq, Prod.mk.injEq] at hret
    have := hx _ hret.1
    omega
  | some pi =>
    obtain ⟨r, pi', m', hcopy, hext, hs, hrest⟩ := pipereadCopy_eq (i := 0) h haddr n.toInt.toNat pi
    rw [Nat.zero_add] at hcopy
    rw [Nat.add_zero] at hext hs
    have hrun : piperead t.label addr n seen m = .ok (some ((r : ℤ), pi'), m') := by
      rw [piperead_of_waited hpi, bind_of_ok hcopy]
      rfl
    have hle := hext.le
    have hcond : r = min n.toInt.toNat pi.buffered.length ↔ ∀ k : ℕ, k < n.toInt →
        k < pi.buffered.length → UserWritable t ((addr + k) / pgSize) := by
      rw [hext.eq_iff]
      exact ⟨fun hall k hk hk' => hall k (by omega), fun hall k hk => hall k (by omega) (by omega)⟩
    constructor
    · intro hexact pi₀ hpi₀
      obtain rfl := Option.some.inj hpi₀
      obtain ⟨pi₁, hpi₁, hdel⟩ := hexact _ _ _ hrun (Int.natCast_nonneg r)
      obtain rfl := Option.some.inj hpi₁
      apply hcond.mp
      by_contra hne
      have hlen := congrArg List.length (hrest.symm.trans hdel.removed)
      rw [if_neg hne, List.length_drop, List.length_drop, Int.toNat_natCast] at hlen
      omega
    · intro hall r₀ pi₀ m₀ hret _
      rw [hrun, Except.ok.injEq, Prod.mk.injEq, Option.some.injEq, Prod.mk.injEq] at hret
      obtain ⟨⟨rfl, rfl⟩, rfl⟩ := hret
      have hr := hcond.mpr (hall pi rfl)
      rw [if_pos hr] at hrest
      rw [Int.toNat_natCast]
      exact ⟨pi, rfl, ⟨by omega, hrest, hs⟩⟩

def threeBytes : Pipe := ((newPipe.store 7).store 8).store 9

/-- Two of three bytes are read into the last bytes of a page. -/
theorem piperead_exact_iff_two : ∃ (m m' : Kmem) (t : Table 2) (pi' : Pipe), UserTable m t ∧
    piperead t.label 4094 2 [(threeBytes, false)] m = .ok (some (2, pi'), m') ∧
    Delivered t m m' 4094 threeBytes pi' 2 ∧ pi'.buffered = [9] := by
  obtain ⟨m, t, h, hw⟩ := exists_userWritable
  have hpages : ∀ k < 2, UserWritable t ((4094 + k) / pgSize) := fun k hk => by
    rwa [show (4094 + k) / pgSize = 0 by rw [pgSize_eq]; omega]
  have hwait : waited [(threeBytes, false)] = some threeBytes := by
    rw [waited, if_neg (by decide)]
  have hexact := (piperead_exact_iff h (by decide) 2 [(threeBytes, false)]).mpr fun pi _ k hk _ =>
    hpages k (by have : (2 : BitVec 32).toInt = 2 := by decide
                 omega)
  obtain ⟨r, pi', m', hcopy, hext, -, -⟩ :=
    pipereadCopy_eq (i := 0) (k := 2) h (by decide : 4094 + 0 < 2 ^ 64) threeBytes
  have hr : r = 2 := hext.eq_iff.mpr hpages
  have hrun : piperead t.label 4094 2 [(threeBytes, false)] m = .ok (some ((r : ℤ), pi'), m') := by
    rw [piperead_of_waited hwait]
    exact bind_of_ok (hcopy.trans (by rw [Nat.zero_add]))
  subst hr
  obtain ⟨pi, hpi, hdel⟩ := hexact _ _ _ hrun (by decide)
  obtain rfl := Option.some.inj (hwait.symm.trans hpi)
  exact ⟨m, m', t, pi', h, hrun, hdel, hdel.removed.trans (by decide)⟩

def oneByte : Pipe := newPipe.store 7

/-- The byte is lost if the process has no memory to put it in. -/
theorem piperead_loses_byte : ∃ (m : Kmem) (t : Table 2) (pi' : Pipe), UserTable m t ∧
    oneByte.buffered = [7] ∧ piperead t.label 0 1 [(oneByte, false)] m = .ok (some (0, pi'), m) ∧
    pi'.buffered = [] := by
  obtain ⟨m, t, hu, -, -⟩ := exists_uvm (show 0x80022000 < 2 ^ 64 by decide)
  have hu := hu ⟨fun _ => 0, fun _ _ => 0⟩
  have h := UserTable.of_uvm hu
  have hw : ¬UserWritable t (0 / pgSize) := fun hc =>
    absurd (hc.toUserPage.of_uvm hu) (Nat.not_lt_zero _)
  have hrun : copyoutBytes t.label 0 [7] m = .ok (false, m) :=
    copyoutBytesLoop_refused h (Nat.succ_pos 0) hw
  refine ⟨m, t, oneByte.fetch, h, by decide, ?_, by decide⟩
  have hcopy : pipereadCopy t.label 0 1 0 oneByte m = .ok ((0, oneByte.fetch), m) := by
    rw [pipereadCopy, if_neg (by decide)]
    exact bind_of_ok hrun
  rw [piperead, if_neg (by decide)]
  exact bind_of_ok hcopy

end Xv6.File
