import Xv6.Lib.Bytes
import Xv6.Lib.Fallible
import Xv6.Vm.UserMem

/-! Physical memory in pages, and the page allocator of `kernel/kalloc.c`. -/
namespace Xv6.Vm

open Lib

abbrev Page : Type := Bytes pgSize

def kernBase : ℕ := 0x80000000

def physTop : ℕ := kernBase + 128 * 1024 * 1024

/-- What the linker decides: `end`, the first address after the kernel, and the page of the
trampoline code, which is part of the kernel. -/
structure Layout where
  kernelEnd : ℕ
  trampoline : ℕ
  kernelEnd_ge : kernBase ≤ kernelEnd
  trampoline_lt : trampoline < kernelEnd
  trampoline_aligned : trampoline % pgSize = 0
  trampoline_ne : trampoline ≠ 0
  kernelEnd_le : kernelEnd ≤ physTop

def smallKernel : Layout where
  kernelEnd := 0x80022000
  trampoline := 0x80007000
  kernelEnd_ge := by decide
  trampoline_lt := by decide
  trampoline_aligned := by decide
  trampoline_ne := by decide
  kernelEnd_le := by decide

/-- The pages by their addresses, `kmem.freelist`, and how many calls of `kalloc` there have been. In
call `i` other processes may have taken all pages, so that it fails: `fails i`. -/
structure Kmem where
  page : ℕ → Page
  freelist : List ℕ
  calls : ℕ
  fails : ℕ → Bool

/-- Kernel code: it may panic. -/
abbrev Kern : Type → Type := StateT Kmem (Except String)

namespace Kmem

variable (m : Kmem) (pa i x : ℕ)

def setPage (c : Page) : Kmem := { m with page := Function.update m.page pa c }

/-- Entry `i` of an array of 64-bit numbers. -/
def pte : ℕ := (m.page pa).getLE (8 * i) 8

def setPte : Kmem := m.setPage pa ((m.page pa).setLE (8 * i) 8 x)

end Kmem

def memset (pa : ℕ) (c : UInt8) : Kern Unit := fun m => .ok ((), m.setPage pa fun _ => c)

def loadPte (pagetable i : ℕ) : Kern ℕ := fun m => .ok (m.pte pagetable i, m)

def storePte (pagetable i x : ℕ) : Kern Unit := fun m => .ok ((), m.setPte pagetable i x)

def kalloc : Kern (Option ℕ) := fun m =>
  match m.freelist, m.fails m.calls with
  | pa :: freelist, false =>
    .ok (some pa, { m with freelist := freelist, calls := m.calls + 1 }.setPage pa fun _ => 5)
  | _, _ => .ok (none, { m with calls := m.calls + 1 })

/-- A free page has 1 in every byte; the link that the code keeps in its first word is left out. -/
def kfree (L : Layout) (pa : ℕ) : Kern Unit := fun m =>
  if pa % pgSize ≠ 0 ∨ pa < L.kernelEnd ∨ physTop ≤ pa then .error "kfree"
  else .ok ((), { m with freelist := pa :: m.freelist }.setPage pa fun _ => 1)

/-- A page that the allocator hands out. -/
structure Layout.Ram (L : Layout) (pa : ℕ) : Prop where
  aligned : pa % pgSize = 0
  ge : L.kernelEnd ≤ pa
  lt : pa < physTop

/-- The calls of `kalloc` between two states returned `ps`, and if `ok` is false one more returned
0. -/
structure Took (m m' : Kmem) (ps : List ℕ) (ok : Bool) : Prop where
  freelist : m.freelist = ps ++ m'.freelist
  fails : m'.fails = m.fails
  granted : ∀ j < ps.length, m.fails (m.calls + j) = false
  calls : ok = true → m'.calls = m.calls + ps.length
  denied : ok = false → m.fails (m.calls + ps.length) = true ∨ m'.freelist = []

/-- The next `k` calls of `kalloc` succeed. -/
structure Kmem.Supplies (m : Kmem) (k : ℕ) : Prop where
  le : k ≤ m.freelist.length
  granted : ∀ j < k, m.fails (m.calls + j) = false

variable {L : Layout} {m m' m'' : Kmem} {pa pb i j x k : ℕ} {c : Page} {ps qs : List ℕ} {ok : Bool}

theorem Layout.Ram.pos (h : L.Ram pa) : 0 < pa := by
  have := h.ge
  have := L.kernelEnd_ge
  unfold kernBase at this
  omega

/-! The pages. -/

@[simp] theorem Kmem.page_setPage_self : (m.setPage pa c).page pa = c := by
  simp [setPage]

theorem Kmem.page_setPage_of_ne (h : pb ≠ pa) : (m.setPage pa c).page pb = m.page pb := by
  simp [setPage, h]

theorem Kmem.pte_congr (h : m'.page pa = m.page pa) : m'.pte pa i = m.pte pa i := by
  rw [pte, pte, h]

theorem Kmem.pte_lt : m.pte pa i < 2 ^ 64 := Bytes.getLE_lt 8

theorem Kmem.pte_setPte_self (hi : i < 512) (hx : x < 2 ^ 64) : (m.setPte pa i x).pte pa i = x := by
  rw [pte, setPte, page_setPage_self, Bytes.getLE_setLE_self (by rw [pgSize_eq]; omega)]
  exact Nat.mod_eq_of_lt hx

theorem Kmem.pte_setPte_of_ne (h : j ≠ i) : (m.setPte pa i x).pte pa j = m.pte pa j := by
  rw [pte, setPte, page_setPage_self, Bytes.getLE_setLE_of_disjoint (by omega), pte]

theorem Kmem.pte_zero : (m.setPage pa fun _ => 0).pte pa i = 0 := by
  rw [pte, page_setPage_self, Bytes.getLE_zero]

/-! The allocator. -/

theorem Took.refl (m : Kmem) : Took m m [] true :=
  ⟨rfl, rfl, fun _ h => absurd h (Nat.not_lt_zero _), fun _ => rfl, fun h => by cases h⟩

theorem Took.trans (h : Took m m' ps true) (h' : Took m' m'' qs ok) : Took m m'' (ps ++ qs) ok := by
  have hcalls := h.calls rfl
  refine ⟨?_, h'.fails.trans h.fails, fun j hj => ?_, fun hok => ?_, fun hok => ?_⟩
  · rw [h.freelist, h'.freelist, List.append_assoc]
  · rw [List.length_append] at hj
    by_cases hlt : j < ps.length
    · exact h.granted j hlt
    · have := h'.granted (j - ps.length) (by omega)
      rw [h.fails, hcalls] at this
      rw [show m.calls + j = m.calls + ps.length + (j - ps.length) by omega]
      exact this
  · rw [h'.calls hok, hcalls, List.length_append, Nat.add_assoc]
  · have := h'.denied hok
    rw [h.fails, hcalls] at this
    rw [List.length_append, ← Nat.add_assoc]
    exact this

theorem Took.setPage (h : Took m m' ps ok) (pa : ℕ) (c : Page) : Took m (m'.setPage pa c) ps ok :=
  ⟨h.freelist, h.fails, h.granted, h.calls, h.denied⟩

theorem Took.supplies (h : Took m m' ps true) : m.Supplies ps.length :=
  ⟨by rw [h.freelist, List.length_append]; omega, h.granted⟩

theorem Took.not_supplies (h : Took m m' ps false) (hk : ps.length < k) : ¬m.Supplies k := by
  rintro ⟨hle, hgranted⟩
  rcases h.denied rfl with hf | hf
  · rw [hgranted _ hk] at hf
    cases hf
  · have := congrArg List.length h.freelist
    rw [hf, List.append_nil] at this
    omega

theorem Kmem.Supplies.mono {j : ℕ} (h : m.Supplies k) (hj : j ≤ k) : m.Supplies j :=
  ⟨hj.trans h.le, fun i hi => h.granted i (hi.trans_le hj)⟩

theorem Kmem.Supplies.after (h : m.Supplies k) (ht : Took m m' ps true) :
    m'.Supplies (k - ps.length) := by
  have hle := h.le
  rw [ht.freelist, List.length_append] at hle
  refine ⟨by omega, fun j hj => ?_⟩
  rw [ht.fails, ht.calls rfl, Nat.add_assoc]
  exact h.granted _ (by omega)

theorem kalloc_spec {E : String → Prop} : Ensures E kalloc (fun r m' =>
    Took m m' r.toList r.isSome ∧ (∀ a, r ≠ some a → m'.page a = m.page a)) m := by
  unfold Ensures kalloc
  cases hf : m.freelist with
  | nil =>
    refine ⟨⟨by simp [hf], rfl, fun j hj => ?_, fun h => ?_, fun _ => Or.inr rfl⟩, fun a _ => rfl⟩
    · simp at hj
    · cases h
  | cons pa freelist =>
    cases hd : m.fails m.calls with
    | false =>
      refine ⟨⟨by simp [hf, Kmem.setPage], rfl, fun j hj => ?_, fun _ => rfl, fun h => ?_⟩,
        fun a ha => ?_⟩
      · obtain rfl : j = 0 := by simpa using hj
        exact hd
      · cases h
      · exact Kmem.page_setPage_of_ne fun he => ha (by rw [he])
    | true =>
      refine ⟨⟨by simp [hf], rfl, fun j hj => ?_, fun h => ?_, fun _ => Or.inl hd⟩, fun a _ => rfl⟩
      · simp at hj
      · cases h

theorem kfree_eq (h : L.Ram pa) :
    kfree L pa m = .ok ((), { m with freelist := pa :: m.freelist }.setPage pa fun _ => 1) := by
  have hge := h.ge
  have hlt := h.lt
  have hal := h.aligned
  unfold kfree
  rw [if_neg (by omega)]

end Xv6.Vm
