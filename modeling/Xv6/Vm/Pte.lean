import Xv6.Lib.Radix
import Xv6.Vm.UserMem

/-! Page table entries: the macros of `kernel/riscv.h`. -/
namespace Xv6.Vm

open Lib.Radix (digit)

def pteV : ℕ := 1
def pteR : ℕ := 2
def pteW : ℕ := 4
def pteX : ℕ := 8
def pteU : ℕ := 16

def pa2pte (pa : ℕ) : ℕ := (pa >>> 12) <<< 10

def pte2pa (pte : ℕ) : ℕ := ((pte >>> 10) <<< 12) % 2 ^ 64

def pteFlags (pte : ℕ) : ℕ := pte &&& 0x3FF

/-- The number of entries in a page-table page. -/
@[irreducible] def fanout : ℕ := 512

theorem fanout_eq : fanout = 512 := by
  unfold fanout
  rfl

instance : NeZero fanout := ⟨by rw [fanout_eq]; decide⟩

def px (level va : ℕ) : ℕ := (va >>> (12 + 9 * level)) &&& 0x1FF

variable {pa flags va level : ℕ}

theorem pa2pte_eq (pa : ℕ) : pa2pte pa = pa / pgSize * 1024 := by
  rw [pa2pte, Nat.shiftRight_eq_div_pow, Nat.shiftLeft_eq]
  rfl

theorem pteFlags_eq (pte : ℕ) : pteFlags pte = pte % 1024 := Nat.and_two_pow_sub_one_eq_mod pte 10

theorem pa2pte_or (h : flags < 1024) : pa2pte pa ||| flags = pa2pte pa + flags := by
  rw [pa2pte, ← Nat.shiftLeft_add_eq_or_of_lt h]

theorem pteFlags_or (h : flags < 1024) : pteFlags (pa2pte pa ||| flags) = flags := by
  rw [pa2pte_or h, pteFlags_eq, pa2pte_eq]
  omega

theorem pte2pa_or (hf : flags < 1024) (hpa : pa < 2 ^ 64) (hal : pa % pgSize = 0) :
    pte2pa (pa2pte pa ||| flags) = pa := by
  rw [pa2pte_or hf, pa2pte_eq, pte2pa, Nat.shiftRight_eq_div_pow, Nat.shiftLeft_eq]
  rw [pgSize_eq] at *
  omega

theorem pa2pte_or_lt (hf : flags < 1024) (hpa : pa < 2 ^ 64) : pa2pte pa ||| flags < 2 ^ 64 := by
  rw [pa2pte_or hf, pa2pte_eq, pgSize_eq]
  omega

theorem pa2pte_or_and {x : ℕ} (hf : flags < 1024) (hx : x < 1024) :
    (pa2pte pa ||| flags) &&& x = flags &&& x := by
  have hmod : ∀ y, y &&& x = y % 1024 &&& x := fun y => by
    have hx' : 0x3FF &&& x = x := by
      rw [Nat.and_comm, Nat.and_two_pow_sub_one_eq_mod x 10, Nat.mod_eq_of_lt hx]
    conv_lhs => rw [← hx', ← Nat.and_assoc, Nat.and_two_pow_sub_one_eq_mod y 10]
  rw [hmod, ← pteFlags_eq, pteFlags_or hf]

theorem px_eq_digit : px level va = digit fanout level (va / pgSize) := by
  rw [px, Nat.and_two_pow_sub_one_eq_mod _ 9, Nat.shiftRight_eq_div_pow, digit]
  show va / 2 ^ (12 + 9 * level) % 2 ^ 9 = va / pgSize / fanout ^ level % fanout
  rw [fanout_eq, Nat.div_div_eq_div_mul, Nat.pow_add, Nat.pow_mul]
  rfl

end Xv6.Vm
