import Xv6.Proc.Struct
import Xv6.Vm.Create

/-! `growproc` of `kernel/proc.c`, which is what `sbrk` does. -/
namespace Xv6.Proc

open Lib Vm

/-- A `uint64` plus an `int`. -/
def addInt (sz : ℕ) (n : BitVec 32) : ℕ := (((sz : ℤ) + n.toInt) % 2 ^ 64).toNat

def growproc (L : Layout) (n : BitVec 32) (p : Proc) : Kern (Bool × Proc) := do
  if 0 < n.toInt then
    let sz ← uvmalloc L p.pagetable p.sz (addInt p.sz n) pteW
    if sz = 0 then return (false, p)
    else return (true, { p with sz := sz })
  else if n.toInt < 0 then
    let sz ← uvmdealloc L p.pagetable p.sz (addInt p.sz n)
    return (true, { p with sz := sz })
  else return (true, p)

/-- The size has changed by `n`, with the pages that both sizes have as they were and zeros in new
ones, or nothing has. The process had the address space `t`. -/
structure Resized (L : Layout) (n : ℤ) (p : Proc) (t : Table 2) (img : Image) (A : Multiset ℕ)
    (r : Bool × Proc) (m' : Kmem) : Prop where
  done : r.1 = true → (r.2.sz : ℤ) = p.sz + n ∧ r.2 = { p with sz := r.2.sz } ∧
    ∃ t', Keeps t t' (min (numPages p.sz) (numPages r.2.sz)) ∧
      Uvm L m' t' (numPages r.2.sz) (img.fill (numPages p.sz) pteW) p.trapframe A
  failed : r.1 = false → r.2 = p ∧
    ∃ t', Keeps t t' (numPages p.sz) ∧ Uvm L m' t' (numPages p.sz) img p.trapframe A

variable {L : Layout} {m m' : Kmem} {p : Proc} {t : Table 2} {img : Image} {A : Multiset ℕ}
  {n : BitVec 32}

theorem addInt_eq (hsz : p.sz < 2 ^ 63) (h : 0 ≤ (p.sz : ℤ) + n.toInt) :
    (addInt p.sz n : ℤ) = p.sz + n.toInt := by
  have hlt := n.toInt_lt
  rw [addInt, Int.toNat_of_nonneg (Int.emod_nonneg _ (by decide)), Int.emod_eq_of_lt h (by omega)]

theorem le_addInt (hsz : p.sz < 2 ^ 63) (h : (p.sz : ℤ) + n.toInt < 0) : p.sz ≤ addInt p.sz n := by
  have hge := n.le_toInt
  have hwrap : ((p.sz : ℤ) + n.toInt) % 2 ^ 64 = p.sz + n.toInt + 2 ^ 64 := by
    rw [← Int.add_emod_right, Int.emod_eq_of_lt (by omega) (by omega)]
  rw [addInt, hwrap]
  omega

theorem uvm_fill {k n xperm tf : ℕ} (h : Uvm L m t k img tf A) (hk : k ≤ n) :
    Uvm L m t k (img.fill n xperm) tf A :=
  h.congr (fun _ hv => if_pos (hv.trans_le hk)) fun _ hv => if_pos (hv.trans_le hk)

theorem growproc_pos (h : Uvm L m t (numPages p.sz) img p.trapframe A) (hl : t.label = p.pagetable)
    (hn : 0 < n.toInt) :
    Ensures (fun _ => False) (growproc L n p) (Resized L n.toInt p t img A) m := by
  have hsz := h.sz_le
  rw [pgSize_eq] at hsz
  have hnew := addInt_eq (n := n) (p := p) (by omega) (by omega)
  have hmax : max p.sz (addInt p.sz n) = addInt p.sz n := Nat.max_eq_right (by omega)
  have hpages : numPages p.sz ≤ numPages (addInt p.sz n) := numPages_mono (by omega)
  have hspec := uvmalloc_spec (addInt p.sz n) h (show pteW < 1024 by decide)
  rw [hmax, hl] at hspec
  rw [growproc, if_pos hn]
  refine hspec.bind ?_
  rintro r m' (⟨rfl, -, t', hkeep, hu, -⟩ | ⟨rfl, -, -, t', hkeep, hu, -⟩)
  · rw [if_neg (by omega)]
    refine ⟨fun _ => ⟨hnew, rfl, t', ?_, hu⟩, fun hc => (by cases hc)⟩
    rw [Nat.min_eq_left hpages]
    exact hkeep
  · rw [if_pos rfl]
    exact ⟨fun hc => (by cases hc), fun _ => ⟨rfl, t', hkeep, hu⟩⟩

theorem growproc_neg (h : Uvm L m t (numPages p.sz) img p.trapframe A) (hl : t.label = p.pagetable)
    (hn : n.toInt < 0) :
    Ensures (fun _ => False) (growproc L n p) (fun r m' => r.1 = true ∧
      r.2 = { p with sz := min p.sz (addInt p.sz n) } ∧
      ∃ t', Keeps t t' (numPages (min p.sz (addInt p.sz n))) ∧
        Uvm L m' t' (numPages (min p.sz (addInt p.sz n))) img p.trapframe A) m := by
  have hspec := uvmdealloc_spec (addInt p.sz n) h
  rw [hl] at hspec
  rw [growproc, if_neg (by omega), if_pos hn]
  refine hspec.bind ?_
  rintro r m' ⟨rfl, t', hkeep, hu, -⟩
  exact ⟨rfl, rfl, t', hkeep, hu⟩

theorem growproc_resized (h : Uvm L m t (numPages p.sz) img p.trapframe A)
    (hl : t.label = p.pagetable) (hn : 0 ≤ (p.sz : ℤ) + n.toInt) :
    Ensures (fun _ => False) (growproc L n p) (Resized L n.toInt p t img A) m := by
  rcases lt_trichotomy n.toInt 0 with hneg | hzero | hpos
  · have hsz := h.sz_le
    rw [pgSize_eq] at hsz
    have hnew := addInt_eq (n := n) (p := p) (by omega) hn
    have hmin : min p.sz (addInt p.sz n) = addInt p.sz n := Nat.min_eq_right (by omega)
    have hpages : numPages (addInt p.sz n) ≤ numPages p.sz := numPages_mono (by omega)
    refine (growproc_neg h hl hneg).mono ?_
    rintro ⟨ok, p'⟩ m' ⟨rfl, rfl, t', hkeep, hu⟩
    rw [hmin] at hkeep hu ⊢
    refine ⟨fun _ => ⟨hnew, rfl, t', ?_, uvm_fill hu hpages⟩, fun hc => (by cases hc)⟩
    rw [Nat.min_eq_right hpages]
    exact hkeep
  · rw [growproc, if_neg (by omega), if_neg (by omega)]
    have hsame : (p.sz : ℤ) = p.sz + n.toInt := by omega
    exact ⟨fun _ => ⟨hsame, rfl, t, Keeps.refl t _, uvm_fill h le_rfl⟩, fun hc => (by cases hc)⟩
  · exact growproc_pos h hl hpos

/-- `growproc` does what it was asked to or reports failure, unless the size would be negative. -/
theorem growproc_exact_iff (n : BitVec 32) (h : Uvm L m t (numPages p.sz) img p.trapframe A)
    (hl : t.label = p.pagetable) :
    Ensures (fun _ => False) (growproc L n p) (Resized L n.toInt p t img A) m ↔
      0 ≤ (p.sz : ℤ) + n.toInt := by
  constructor
  · intro hres
    by_contra hn
    have hsz := h.sz_le
    rw [pgSize_eq] at hsz
    obtain ⟨r, m', hrun, hdone, -⟩ := hres.exists_ok
    have hneg := (growproc_neg h hl (n := n) (by omega)).of_ok hrun
    obtain ⟨hsize, -⟩ := hdone hneg.1
    have := le_addInt (n := n) (p := p) (by omega) (by omega)
    omega
  · exact growproc_resized h hl

theorem exists_bareProc : ∃ (m : Kmem) (t : Table 2) (img : Image) (A : Multiset ℕ) (p : Proc),
    Uvm smallKernel m t (numPages p.sz) img p.trapframe A ∧ t.label = p.pagetable ∧ p.sz = 0 := by
  obtain ⟨m, t, hu, -, -⟩ := exists_uvm (show bareProc.trapframe < 2 ^ 64 by decide)
  refine ⟨m, t, ⟨fun _ => 0, fun _ _ => 0⟩, fortyPages.freelist,
    { bareProc with pagetable := t.label }, ?_, rfl, rfl⟩
  show Uvm smallKernel m t (numPages 0) _ _ _
  rw [numPages_zero]
  exact hu _

theorem growproc_exact_iff_page : ∃ (m : Kmem) (t : Table 2) (img : Image) (A : Multiset ℕ) (p : Proc),
    p.sz = 0 ∧ Ensures (fun _ => False) (growproc smallKernel 4096 p)
      (Resized smallKernel 4096 p t img A) m := by
  obtain ⟨m, t, img, A, p, hu, hl, hsz⟩ := exists_bareProc
  exact ⟨m, t, img, A, p, hsz, (growproc_exact_iff 4096 hu hl).mpr (by rw [hsz]; decide)⟩

/-- `growproc` returns 0 to a process without memory that gives back a byte. -/
theorem growproc_below_zero : ∃ (m : Kmem) (t : Table 2) (img : Image) (A : Multiset ℕ) (p : Proc),
    Uvm smallKernel m t (numPages p.sz) img p.trapframe A ∧ t.label = p.pagetable ∧ p.sz = 0 ∧
      growproc smallKernel (-1) p m = .ok ((true, p), m) := by
  obtain ⟨m, t, img, A, p, hu, hl, hsz⟩ := exists_bareProc
  refine ⟨m, t, img, A, p, hu, hl, hsz, ?_⟩
  have hle : p.sz ≤ addInt p.sz (-1) := by
    rw [hsz]
    decide
  rw [growproc, if_neg (by decide), if_pos (by decide), uvmdealloc, if_pos hle]
  rfl

end Xv6.Proc
