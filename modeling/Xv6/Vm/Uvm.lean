import Xv6.Vm.Map

/-! User address spaces: `uvmalloc`, `uvmdealloc`, `freewalk`, `uvmfree` and `copyout` of
`kernel/vm.c`, `proc_pagetable` and `proc_freepagetable` of `kernel/proc.c`. -/
namespace Xv6.Vm

open Lib

def pgRoundUp (sz : ℕ) : ℕ := (sz + (pgSize - 1)) % 2 ^ 64 / pgSize * pgSize

def trampolineVa : ℕ := maxVa - pgSize

def trapframeVa : ℕ := trampolineVa - pgSize

/-- A number that goes through an `int` variable to a `uint64` parameter. -/
def viaInt (n : ℕ) : ℕ := if n % 2 ^ 32 < 2 ^ 31 then n % 2 ^ 32 else n % 2 ^ 32 + (2 ^ 64 - 2 ^ 32)

variable (L : Layout)

def uvmdealloc (pagetable oldsz newsz : ℕ) : Kern ℕ := do
  if oldsz ≤ newsz then return oldsz
  else
    if pgRoundUp newsz < pgRoundUp oldsz then
      uvmunmap L pagetable (pgRoundUp newsz)
        (viaInt ((pgRoundUp oldsz - pgRoundUp newsz) / pgSize)) true
    return newsz

def uvmallocLoop (pagetable oldsz newsz xperm : ℕ) : ℕ → ℕ → Kern ℕ
  | 0, _ => return newsz
  | fuel + 1, a =>
    if a < newsz then do
      match ← kalloc with
      | none =>
        let _ ← uvmdealloc L pagetable a oldsz
        return 0
      | some mem =>
        memset mem 0
        if ← mappages pagetable a pgSize mem (pteR ||| pteU ||| xperm) then
          uvmallocLoop pagetable oldsz newsz xperm fuel ((a + pgSize) % 2 ^ 64)
        else
          kfree L mem
          let _ ← uvmdealloc L pagetable a oldsz
          return 0
    else return newsz

def uvmalloc (pagetable oldsz newsz xperm : ℕ) : Kern ℕ :=
  if newsz < oldsz then return oldsz
  else
    let oldsz := pgRoundUp oldsz
    uvmallocLoop L pagetable oldsz newsz xperm ((newsz - oldsz + (pgSize - 1)) / pgSize) oldsz

/-- The loop of `freewalk` over the entries `is`, with `free` for the tables below. -/
def freeEntries (free : ℕ → Kern Unit) (pagetable : ℕ) : List ℕ → Kern Unit
  | [] => return ()
  | i :: is => do
    let pte ← loadPte pagetable i
    if pte &&& pteV ≠ 0 ∧ pte &&& (pteR ||| pteW ||| pteX) = 0 then
      free (pte2pa pte)
      storePte pagetable i 0
      freeEntries free pagetable is
    else if pte &&& pteV ≠ 0 then throw "freewalk: leaf"
    else freeEntries free pagetable is

/-- `freewalk`; the calls are nested at most `depth` deep. -/
def freewalk : ℕ → ℕ → Kern Unit
  | 0, _ => throw "freewalk: depth"
  | depth + 1, pagetable => do
    freeEntries (freewalk depth) pagetable (List.range fanout)
    kfree L pagetable

def uvmfree (pagetable sz : ℕ) : Kern Unit := do
  if 0 < sz then uvmunmap L pagetable 0 (pgRoundUp sz / pgSize) true
  freewalk L 3 pagetable

def procPagetable (trapframe : ℕ) : Kern (Option ℕ) := do
  match ← uvmcreate with
  | none => return none
  | some pagetable =>
    if ← mappages pagetable trampolineVa pgSize L.trampoline (pteR ||| pteX) then
      if ← mappages pagetable trapframeVa pgSize trapframe (pteR ||| pteW) then
        return some pagetable
      else
        uvmunmap L pagetable trampolineVa 1 false
        uvmfree L pagetable 0
        return none
    else
      uvmfree L pagetable 0
      return none

def procFreepagetable (pagetable sz : ℕ) : Kern Unit := do
  uvmunmap L pagetable trampolineVa 1 false
  uvmunmap L pagetable trapframeVa 1 false
  uvmfree L pagetable sz

/-- `n` bytes are copied to a physical page from `off` on. -/
def storeBytes (pa off : ℕ) (bytes : List UInt8) : Kern Unit := fun m =>
  .ok ((), m.setPage pa ((m.page pa).blit off bytes))

/-- The loop of `copyout`, which makes at most `fuel` rounds; `false` is -1. -/
def copyoutBytesLoop (pagetable : ℕ) : ℕ → ℕ → List UInt8 → Kern Bool
  | 0, _, src => return src.isEmpty
  | fuel + 1, dstva, src =>
    if 0 < src.length then do
      let va0 := pgRoundDown dstva
      if maxVa ≤ va0 then return false
      else
        match ← walk pagetable va0 false with
        | none => return false
        | some (p, i) =>
          let pte ← loadPte p i
          if pte &&& pteV = 0 ∨ pte &&& pteU = 0 ∨ pte &&& pteW = 0 then return false
          else
            let n := min (pgSize - (dstva - va0)) src.length
            storeBytes (pte2pa pte) (dstva - va0) (src.take n)
            copyoutBytesLoop pagetable fuel ((va0 + pgSize) % 2 ^ 64) (src.drop n)
    else return true

/-- `copyout` of the bytes `src`; `false` is -1. -/
def copyoutBytes (pagetable dstva : ℕ) (src : List UInt8) : Kern Bool :=
  copyoutBytesLoop pagetable src.length dstva src

end Xv6.Vm
