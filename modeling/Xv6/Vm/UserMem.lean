import Mathlib.Tactic

/-! User memory as the kernel reads it: `copyin` and `copyinstr` of `kernel/vm.c` over the result
of `walkaddr`. -/
namespace Xv6.Vm

def pgSize : ℕ := 4096

/-- One bit less than Sv39 allows. -/
def maxVa : ℕ := 2 ^ 38

@[simp] theorem pgSize_eq : pgSize = 4096 := rfl

def pgRoundDown (a : ℕ) : ℕ := a / pgSize * pgSize

/-- The current process's address space: the physical address of every valid user page below
`MAXVA` (`0` for the others), physical memory, and `p->sz`. -/
structure UserMem where
  walkaddr : ℕ → ℕ
  mem : ℕ → UInt8
  sz : ℕ

def UserMem.bytes (u : UserMem) (pa : ℕ) : ℕ → List UInt8
  | 0 => []
  | len + 1 => u.mem pa :: u.bytes (pa + 1) len

/-- The loop of `copyin`. Every round moves at least one byte, so `len` bounds the rounds. -/
def copyinLoop (u : UserMem) : ℕ → ℕ → ℕ → List UInt8 × Bool
  | 0, _, len => ([], len == 0)
  | fuel + 1, srcva, len =>
    if len = 0 then ([], true)
    else
      let va0 := pgRoundDown srcva
      let pa0 := u.walkaddr va0
      if pa0 = 0 then ([], false)
      else
        let n := min (pgSize - (srcva - va0)) len
        let rest := copyinLoop u fuel (va0 + pgSize) (len - n)
        (u.bytes (pa0 + (srcva - va0)) n ++ rest.1, rest.2)

/-- The bytes stored at `dst`, also those stored before a failure, and whether all were. -/
def copyin (u : UserMem) (srcva len : ℕ) : List UInt8 × Bool := copyinLoop u len srcva len

@[simp] theorem UserMem.length_bytes (u : UserMem) (pa len : ℕ) : (u.bytes pa len).length = len := by
  induction len generalizing pa with
  | zero => rfl
  | succ len ih => simp [UserMem.bytes, ih]

theorem length_copyinLoop (u : UserMem) (fuel srcva len : ℕ) :
    (copyinLoop u fuel srcva len).1.length ≤ len ∧
      ((copyinLoop u fuel srcva len).2 = true → (copyinLoop u fuel srcva len).1.length = len) := by
  induction fuel generalizing srcva len with
  | zero =>
    refine ⟨Nat.zero_le _, fun h => ?_⟩
    exact (beq_iff_eq.mp h).symm
  | succ fuel ih =>
    rw [copyinLoop]
    by_cases h0 : len = 0
    · simp [h0]
    by_cases hpa : u.walkaddr (pgRoundDown srcva) = 0
    · simp [h0, hpa]
    · simp only [h0, hpa, if_false]
      obtain ⟨hle, heq⟩ := ih (pgRoundDown srcva + pgSize)
        (len - min (pgSize - (srcva - pgRoundDown srcva)) len)
      simp only [List.length_append, UserMem.length_bytes]
      refine ⟨by omega, fun h => ?_⟩
      rw [heq h]
      omega

/-- `copyin` never stores more than it was asked to, and all of it if it succeeds. -/
theorem length_copyin (u : UserMem) (srcva len : ℕ) :
    (copyin u srcva len).1.length ≤ len ∧
      ((copyin u srcva len).2 = true → (copyin u srcva len).1.length = len) :=
  length_copyinLoop u len srcva len

def UserMem.byte (u : UserMem) (va : ℕ) : UInt8 :=
  u.mem (u.walkaddr (pgRoundDown va) + (va - pgRoundDown va))

theorem UserMem.bytes_eq_map (u : UserMem) (pa len : ℕ) :
    u.bytes pa len = (List.range len).map fun k => u.mem (pa + k) := by
  induction len generalizing pa with
  | zero => rfl
  | succ len ih =>
    rw [bytes, ih, List.range_succ_eq_map, List.map_cons, List.map_map]
    congr 1
    apply List.map_congr_left
    intro k _
    simp only [Function.comp_apply]
    congr 1
    omega

/-- The loop of `copyout`, as far as its return value goes. -/
def copyoutLoop (writable : ℕ → Bool) : ℕ → ℕ → ℕ → Bool
  | 0, _, len => len == 0
  | fuel + 1, dstva, len =>
    if len = 0 then true
    else
      let va0 := pgRoundDown dstva
      if va0 ≥ maxVa then false
      else if writable va0 = false then false
      else
        let n := min (pgSize - (dstva - va0)) len
        copyoutLoop writable fuel (va0 + pgSize) (len - n)

/-- Whether `copyout` succeeds; `writable` are the pages with a valid user leaf that has `PTE_W`. -/
def copyout (writable : ℕ → Bool) (dstva len : ℕ) : Bool := copyoutLoop writable len dstva len

/-- The part of a page that `copyinstr` copies: the bytes before a NUL, and whether one came. -/
def scanNul : List UInt8 → List UInt8 × Bool
  | [] => ([], false)
  | c :: cs =>
    if c = 0 then ([], true)
    else
      let (s, gotNull) := scanNul cs
      (c :: s, gotNull)

def copyinstrLoop (u : UserMem) : ℕ → ℕ → ℕ → Option (List UInt8)
  | 0, _, _ => none
  | fuel + 1, srcva, max =>
    if max = 0 then none
    else
      let va0 := pgRoundDown srcva
      let pa0 := u.walkaddr va0
      if pa0 = 0 then none
      else
        let n := min (pgSize - (srcva - va0)) max
        let (s, gotNull) := scanNul (u.bytes (pa0 + (srcva - va0)) n)
        if gotNull then some s
        else (copyinstrLoop u fuel (va0 + pgSize) (max - n)).map (s ++ ·)

/-- The string at `srcva` without its NUL, if there is one within `max` bytes. -/
def copyinstr (u : UserMem) (srcva max : ℕ) : Option (List UInt8) := copyinstrLoop u max srcva max

end Xv6.Vm
