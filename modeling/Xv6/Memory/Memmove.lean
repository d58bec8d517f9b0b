import Mathlib.Data.BitVec
import Mathlib.Tactic

/-! `memmove` of `kernel/string.c` and of `user/ulib.c`. Pointers are 64-bit words, so the end of a range
at the top of the address space is 0. -/
namespace Xv6.Memory

abbrev Addr := BitVec 64

abbrev Mem := Addr → UInt8

/-- `while(n-- > 0) *d++ = *s++`. -/
def copyUp : ℕ → Mem → Addr → Addr → Mem
  | 0, m, _, _ => m
  | n + 1, m, d, s => copyUp n (Function.update m d (m s)) (d + 1) (s + 1)

/-- `while(n-- > 0) *--d = *--s`. -/
def copyDown : ℕ → Mem → Addr → Addr → Mem
  | 0, m, _, _ => m
  | n + 1, m, d, s => copyDown n (Function.update m (d - 1) (m (s - 1))) (d - 1) (s - 1)

/-- `memmove` of the kernel, with `uint n`. -/
def memmove (m : Mem) (dst src : Addr) (n : BitVec 32) : Mem :=
  if n = 0 then m
  else if src < dst ∧ dst < src + n.setWidth 64 then
    copyDown n.toNat m (dst + n.setWidth 64) (src + n.setWidth 64)
  else copyUp n.toNat m dst src

/-- `memmove` of the user library, with `int n`. -/
def userMemmove (m : Mem) (dst src : Addr) (n : BitVec 32) : Mem :=
  if dst < src then copyUp n.toInt.toNat m dst src
  else copyDown n.toInt.toNat m (dst + n.signExtend 64) (src + n.signExtend 64)

/-- Memory after `n` bytes have gone from `src` to `dst` through a temporary. -/
def moved (m : Mem) (dst src : Addr) (n : ℕ) : Mem := fun a =>
  if (a - dst).toNat < n then m (src + (a - dst)) else m a

/-- No byte that is written is read later on the way up. -/
def UpSafe (dst src : Addr) (n : ℕ) : Prop := (dst - src).toNat = 0 ∨ n ≤ (dst - src).toNat

/-- No byte that is written is read later on the way down. -/
def DownSafe (dst src : Addr) (n : ℕ) : Prop := (src - dst).toNat = 0 ∨ n ≤ (src - dst).toNat

theorem copyUp_eq {n : ℕ} {m : Mem} {d s : Addr} (hn : n ≤ 2 ^ 64) (h : UpSafe d s n) :
    copyUp n m d s = moved m d s n := by
  induction n generalizing m d s with
  | zero =>
    funext a
    rw [moved, if_neg (Nat.not_lt_zero _)]
    rfl
  | succ n ih =>
    unfold UpSafe at h
    have hsafe : UpSafe (d + 1) (s + 1) n := by
      unfold UpSafe
      rw [show d + 1 - (s + 1) = d - s by bv_omega]
      omega
    rw [copyUp, ih (by omega) hsafe]
    funext a
    unfold moved
    by_cases ha : a = d
    · have hlast : ¬(a - (d + 1)).toNat < n := by
        rw [ha]
        bv_omega
      rw [if_neg hlast, ha, Function.update_self, BitVec.sub_self, BitVec.toNat_zero,
        if_pos (Nat.succ_pos n), BitVec.add_zero]
    · have hstep : (a - (d + 1)).toNat + 1 = (a - d).toNat := by bv_omega
      have hsrc : s + 1 + (a - (d + 1)) = s + (a - d) := by bv_omega
      rw [hsrc, Function.update_of_ne ha]
      by_cases hk : (a - (d + 1)).toNat < n
      · have hne : s + (a - d) ≠ d := by
          intro heq
          have : a - d = d - s := by rw [← heq]; bv_omega
          rw [this] at hstep
          omega
        rw [if_pos hk, if_pos (by omega), Function.update_of_ne hne]
      · rw [if_neg hk, if_neg (by omega)]

theorem copyDown_eq {n : ℕ} {m : Mem} {d s : Addr} (hn : n ≤ 2 ^ 64) (h : DownSafe d s n) :
    copyDown n m (d + BitVec.ofNat 64 n) (s + BitVec.ofNat 64 n) = moved m d s n := by
  induction n generalizing m with
  | zero =>
    funext a
    rw [moved, if_neg (Nat.not_lt_zero _)]
    rfl
  | succ n ih =>
    unfold DownSafe at h
    have hd : d + BitVec.ofNat 64 (n + 1) - 1 = d + BitVec.ofNat 64 n := by bv_omega
    have hs : s + BitVec.ofNat 64 (n + 1) - 1 = s + BitVec.ofNat 64 n := by bv_omega
    rw [copyDown, hd, hs, ih (by omega) (by unfold DownSafe; omega)]
    have htop : (BitVec.ofNat 64 n).toNat = n := by
      rw [BitVec.toNat_ofNat]
      omega
    funext a
    unfold moved
    by_cases ha : a = d + BitVec.ofNat 64 n
    · have hk : a - d = BitVec.ofNat 64 n := by rw [ha]; ring
      rw [hk, htop, if_neg (Nat.lt_irrefl n), if_pos (Nat.lt_succ_self n), ha, Function.update_self]
    · have hk : (a - d).toNat ≠ n := by
        intro heq
        apply ha
        rw [← heq, BitVec.ofNat_toNat, BitVec.setWidth_eq]
        ring
      rw [Function.update_of_ne ha]
      by_cases hlt : (a - d).toNat < n
      · have hne : s + (a - d) ≠ d + BitVec.ofNat 64 n := by
          intro heq
          have hdiff : s - d = BitVec.ofNat 64 n - (a - d) := by linear_combination heq
          have hval : (s - d).toNat = n - (a - d).toNat := by
            rw [hdiff, BitVec.toNat_sub_of_le (by rw [BitVec.le_def, htop]; omega), htop]
          omega
        rw [if_pos hlt, if_pos (by omega), Function.update_of_ne hne]
      · rw [if_neg hlt, if_neg (by omega)]

structure InSpace (dst src : Addr) (n : ℕ) : Prop where
  dst : dst.toNat + n ≤ 2 ^ 64
  src : src.toNat + n ≤ 2 ^ 64

theorem setWidth_eq_ofNat (n : BitVec 32) : n.setWidth 64 = BitVec.ofNat 64 n.toNat := by
  apply BitVec.eq_of_toNat_eq
  rw [BitVec.toNat_setWidth, BitVec.toNat_ofNat]

theorem toInt_of_nonneg {n : BitVec 32} (h : 0 ≤ n.toInt) : n.toInt.toNat = n.toNat := by
  rw [BitVec.toInt_eq_toNat_cond] at h ⊢
  split_ifs at h ⊢
  · rfl
  · omega

theorem signExtend_eq_ofNat {n : BitVec 32} (h : 0 ≤ n.toInt) :
    n.signExtend 64 = BitVec.ofNat 64 n.toNat := by
  rw [BitVec.signExtend_eq_setWidth_of_msb_false, setWidth_eq_ofNat]
  rw [BitVec.toInt_eq_msb_cond] at h
  split_ifs at h with hmsb
  · have := n.isLt
    omega
  · simpa using hmsb

theorem memmove_eq_moved (m : Mem) {dst src : Addr} {n : BitVec 32}
    (h : InSpace dst src n.toNat) : memmove m dst src n = moved m dst src n.toNat := by
  obtain ⟨hd, hs⟩ := h
  have hn := n.isLt
  unfold memmove
  rw [setWidth_eq_ofNat]
  split_ifs with h0 hdown
  · funext a
    have hlen : n.toNat = 0 := by rw [h0]; rfl
    rw [hlen, moved, if_neg (Nat.not_lt_zero _)]
  · apply copyDown_eq (by omega)
    right
    bv_omega
  · apply copyUp_eq (by omega)
    unfold UpSafe
    bv_omega

theorem userMemmove_eq_moved (m : Mem) {dst src : Addr} {n : BitVec 32}
    (h : InSpace dst src n.toInt.toNat) :
    userMemmove m dst src n = moved m dst src n.toInt.toNat := by
  obtain ⟨hd, hs⟩ := h
  have hn := n.isLt
  unfold userMemmove
  by_cases hneg : 0 ≤ n.toInt
  · rw [signExtend_eq_ofNat hneg]
    rw [toInt_of_nonneg hneg] at *
    split_ifs with hlt
    · apply copyUp_eq (by omega)
      unfold UpSafe
      bv_omega
    · apply copyDown_eq (by omega)
      unfold DownSafe
      bv_omega
  · -- a negative count copies nothing in either direction
    rw [Int.toNat_of_nonpos (by omega)]
    funext a
    rw [moved, if_neg (Nat.not_lt_zero _)]
    split_ifs <;> rfl

/-- The `n` bytes from `dst` on are those that were at `src`, and no other byte has changed. -/
structure Copied (m m' : Mem) (dst src : Addr) (n : ℕ) : Prop where
  inside : ∀ i < n, m' (dst + BitVec.ofNat 64 i) = m (src + BitVec.ofNat 64 i)
  outside : ∀ a, (∀ i < n, a ≠ dst + BitVec.ofNat 64 i) → m' a = m a

theorem copied_moved {m : Mem} {dst src : Addr} {n : ℕ} (hn : n ≤ 2 ^ 64) :
    Copied m (moved m dst src n) dst src n := by
  constructor
  · intro i hi
    have hk : dst + BitVec.ofNat 64 i - dst = BitVec.ofNat 64 i := by bv_omega
    rw [moved, hk, BitVec.toNat_ofNat, Nat.mod_eq_of_lt (by omega), if_pos hi]
  · intro a ha
    rw [moved, if_neg]
    intro hlt
    apply ha _ hlt
    rw [BitVec.ofNat_toNat, BitVec.setWidth_eq]
    bv_omega

/-- Both versions copy as if through a temporary, each for the counts of its own type, and they agree on
the counts that both types have. -/
theorem memmove_copies (m : Mem) (dst src : Addr) (n : BitVec 32) :
    (InSpace dst src n.toNat → Copied m (memmove m dst src n) dst src n.toNat) ∧
      (InSpace dst src n.toInt.toNat →
        Copied m (userMemmove m dst src n) dst src n.toInt.toNat) ∧
      (0 ≤ n.toInt → InSpace dst src n.toNat → userMemmove m dst src n = memmove m dst src n) := by
  have hn := n.isLt
  refine ⟨fun h => ?_, fun h => ?_, fun hpos h => ?_⟩
  · rw [memmove_eq_moved m h]
    exact copied_moved (by omega)
  · rw [userMemmove_eq_moved m h]
    apply copied_moved
    have := h.dst
    omega
  · rw [memmove_eq_moved m h, userMemmove_eq_moved m (by rwa [toInt_of_nonneg hpos]),
      toInt_of_nonneg hpos]

end Xv6.Memory
