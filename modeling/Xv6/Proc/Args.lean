import Xv6.Lib.Bytes
import Xv6.Param
import Xv6.Str
import Xv6.Vm.UserMem

/-! Fetching system call arguments: `kernel/syscall.c`, and the loop of `sys_exec` and `sys_ps`
that copies in an argument vector. -/
namespace Xv6.Proc

open Vm

def uint64 : ℕ := 2 ^ 64

def argint (a : BitVec 64) : ℤ := (a.setWidth 32).toInt

def fetchaddr (u : UserMem) (addr : ℕ) : Option ℕ :=
  if addr ≥ u.sz ∨ (addr + 8) % uint64 > u.sz then none
  else
    let (bytes, ok) := copyin u addr 8
    if ok then some (Lib.leValue bytes) else none

def fetchstr (u : UserMem) (addr max : ℕ) : Option Str := copyinstr u addr max

/-- The fetch loop of `sys_exec` and `sys_ps` from index `i` on, with the strings fetched so far.
`kalloc i` says whether the page for `argv[i]` could be allocated; `none` is the jump to `bad`. -/
def fetchArgvFrom (u : UserMem) (kalloc : ℕ → Bool) (uargv : ℕ) : ℕ → ℕ → List Str → Option (List Str)
  | 0, _, _ => none
  | fuel + 1, i, argv => do
    let uarg ← fetchaddr u ((uargv + 8 * i) % uint64)
    if uarg = 0 then some argv
    else if kalloc i then
      let s ← fetchstr u uarg pgSize
      fetchArgvFrom u kalloc uargv fuel (i + 1) (argv ++ [s])
    else none

/-- The strings that end up in `argv`; `argv[i]` is null from their number on. -/
def fetchArgv (u : UserMem) (kalloc : ℕ → Bool) (uargv : ℕ) : Option (List Str) :=
  fetchArgvFrom u kalloc uargv maxArg 0 []

theorem fetchArgvFrom_length {u : UserMem} {kalloc : ℕ → Bool} {uargv fuel i : ℕ}
    {argv args : List Str} (h : fetchArgvFrom u kalloc uargv fuel i argv = some args) :
    args.length < argv.length + fuel := by
  induction fuel generalizing i argv with
  | zero => simp [fetchArgvFrom] at h
  | succ fuel ih =>
    simp only [fetchArgvFrom, Option.bind_eq_bind, Option.bind_eq_some_iff] at h
    obtain ⟨uarg, -, h⟩ := h
    split_ifs at h with h0 hk
    · rw [← Option.some.inj h]
      omega
    · obtain ⟨s, -, h⟩ := Option.bind_eq_some_iff.mp h
      have := ih h
      simp only [List.length_append, List.length_singleton] at this
      omega

/-- A fetched vector leaves room for its terminating null pointer. -/
theorem fetchArgv_length {u : UserMem} {kalloc : ℕ → Bool} {uargv : ℕ} {args : List Str}
    (h : fetchArgv u kalloc uargv = some args) : args.length < maxArg := by
  simpa using fetchArgvFrom_length h

theorem scanNul_spec (l : List UInt8) : 0 ∉ (scanNul l).1 ∧ (scanNul l).1.length ≤ l.length ∧
    ((scanNul l).2 = true → (scanNul l).1.length < l.length) := by
  induction l with
  | nil => exact ⟨List.not_mem_nil, le_rfl, fun h => (by cases h)⟩
  | cons c cs ih =>
    obtain ⟨hnul, hle, hlt⟩ := ih
    rw [scanNul]
    split_ifs with hc
    · exact ⟨List.not_mem_nil, Nat.zero_le _, fun _ => Nat.succ_pos _⟩
    · refine ⟨?_, Nat.succ_le_succ hle, fun h => Nat.succ_lt_succ (hlt h)⟩
      rw [List.mem_cons, not_or]
      exact ⟨fun h => hc h.symm, hnul⟩

theorem copyinstrLoop_spec {u : UserMem} {fuel srcva max : ℕ} {s : Str}
    (h : copyinstrLoop u fuel srcva max = some s) : s.length < max ∧ 0 ∉ s := by
  induction fuel generalizing srcva max s with
  | zero => simp [copyinstrLoop] at h
  | succ fuel ih =>
    rw [copyinstrLoop] at h
    dsimp only at h
    split_ifs at h with h0 hpa hgot
    · obtain ⟨hnul, -, hlt⟩ := scanNul_spec (u.bytes (u.walkaddr (pgRoundDown srcva) +
        (srcva - pgRoundDown srcva)) (min (pgSize - (srcva - pgRoundDown srcva)) max))
      rw [← Option.some.inj h]
      refine ⟨(hlt hgot).trans_le ?_, hnul⟩
      rw [UserMem.length_bytes]
      exact Nat.min_le_right _ _
    · obtain ⟨hnul, hle, -⟩ := scanNul_spec (u.bytes (u.walkaddr (pgRoundDown srcva) +
        (srcva - pgRoundDown srcva)) (min (pgSize - (srcva - pgRoundDown srcva)) max))
      obtain ⟨r, hr, rfl⟩ := Option.map_eq_some_iff.mp h
      obtain ⟨hlen, hnul'⟩ := ih hr
      rw [UserMem.length_bytes] at hle
      refine ⟨?_, fun hm => ?_⟩
      · rw [List.length_append]
        omega
      · rcases List.mem_append.mp hm with hm | hm
        · exact hnul hm
        · exact hnul' hm

/-- An argument vector as the fetch loop makes it. -/
structure ArgVec where
  strings : List Str
  few : strings.length < maxArg
  short : ∀ s ∈ strings, s.length < pgSize
  noNul : ∀ s ∈ strings, 0 ∉ s

theorem fetchArgvFrom_strings {u : UserMem} {kalloc : ℕ → Bool} {uargv fuel i : ℕ}
    {argv args : List Str} (h : fetchArgvFrom u kalloc uargv fuel i argv = some args)
    (hargv : ∀ s ∈ argv, s.length < pgSize ∧ 0 ∉ s) : ∀ s ∈ args, s.length < pgSize ∧ 0 ∉ s := by
  induction fuel generalizing i argv with
  | zero => simp [fetchArgvFrom] at h
  | succ fuel ih =>
    simp only [fetchArgvFrom, Option.bind_eq_bind, Option.bind_eq_some_iff] at h
    obtain ⟨uarg, -, h⟩ := h
    split_ifs at h with h0 hk
    · rw [← Option.some.inj h]
      exact hargv
    · obtain ⟨s, hs, h⟩ := Option.bind_eq_some_iff.mp h
      refine ih h fun s' hs' => ?_
      rcases List.mem_append.mp hs' with hs' | hs'
      · exact hargv s' hs'
      · rw [List.mem_singleton.mp hs']
        exact copyinstrLoop_spec hs

/-- All vectors that are fetched are such. -/
theorem fetchArgv_argVec {u : UserMem} {kalloc : ℕ → Bool} {uargv : ℕ} {args : List Str}
    (h : fetchArgv u kalloc uargv = some args) : ∃ argv : ArgVec, argv.strings = args := by
  have hstrings := fetchArgvFrom_strings h (fun s hs => absurd hs List.not_mem_nil)
  exact ⟨⟨args, fetchArgv_length h, fun s hs => (hstrings s hs).1, fun s hs => (hstrings s hs).2⟩, rfl⟩

/-- One page at address 0 that holds the argument vector of a program called without arguments. -/
def psCallerMem : UserMem where
  walkaddr va := if va = 0 then pgSize else 0
  mem a := if a = 4096 then 16 else if a = 4112 then 112 else if a = 4113 then 115 else 0
  sz := 4096

theorem fetchArgv_psCallerMem : fetchArgv psCallerMem (fun _ => true) 0 = some [lit "ps"] := by
  decide +kernel

theorem fetchArgv_argVec_ps : ∃ argv : ArgVec, argv.strings = [lit "ps"] :=
  fetchArgv_argVec fetchArgv_psCallerMem

end Xv6.Proc
