import Xv6.Lib.System
import Xv6.Umalloc.Invariant

/-! Runs of `malloc` and `free`: the blocks that a program holds. -/
namespace Xv6.Umalloc

open Lib

/-- A pointer that `malloc` has returned for a request, and that has not been freed. -/
structure Live where
  ptr : ℕ
  nbytes : ℕ
  deriving DecidableEq

def Live.header (b : Live) : ℕ := b.ptr - unit

structure Machine where
  heap : Heap
  live : List Live

/-- The memory of the machine, which bounds the size of a process. -/
def physMem : ℕ := 128 * 1024 * 1024

/-- The calls of a program; `allowed` says which requests it makes. -/
inductive Step (base : ℕ) (allowed : BitVec 32 → Prop) : Machine → Machine → Prop
  | malloc {m : Machine} {nbytes : BitVec 32} {fuel limit p : ℕ} {s : Heap} (h : allowed nbytes)
      (hlimit : limit ≤ physMem) (hret : malloc base fuel limit m.heap nbytes = .ok (p, s)) :
      Step base allowed m ⟨s, if p = 0 then m.live else ⟨p, nbytes.toNat⟩ :: m.live⟩
  | free {m : Machine} {b : Live} {fuel : ℕ} {s : Heap} (hb : b ∈ m.live)
      (hret : free fuel m.heap b.ptr = some s) :
      Step base allowed m ⟨s, m.live.erase b⟩

/-- A program that starts with the break at `brk` above its data, where `base` is. -/
def program (base brk : ℕ) (allowed : BitVec 32 → Prop) : System Machine where
  init m := m.heap.freep = 0 ∧ m.heap.brk = brk ∧ m.live = [] ∧
    0 < base ∧ base + unit ≤ brk ∧ brk ≤ physMem
  step := Step base allowed

/-- The block of `b`, with its header, is memory from `sbrk` below the break, and holds the bytes that
were asked for. -/
structure Held (brk : ℕ) (s : Heap) (b : Live) : Prop where
  header : brk + unit ≤ b.ptr
  inside : b.ptr + b.nbytes ≤ blockEnd s.hdr b.header
  below : blockEnd s.hdr b.header ≤ s.brk

/-- What the program holds: disjoint blocks, none of which is on the free list. -/
structure Safe (brk : ℕ) (m : Machine) : Prop where
  held : ∀ b ∈ m.live, Held brk m.heap b
  disjoint : m.live.Pairwise fun b c =>
    blockEnd m.heap.hdr b.header ≤ c.header ∨ blockEnd m.heap.hdr c.header ≤ b.header
  notFree : m.heap.freep ≠ 0 → ∃ S, WellFormed m.heap S ∧ ∀ b ∈ m.live, ∀ a ∈ S,
    blockEnd m.heap.hdr a ≤ b.header ∨ blockEnd m.heap.hdr b.header ≤ a

/-- The invariant once the free list exists. -/
structure Kept (base brk : ℕ) (m : Machine) (S : Finset ℕ) : Prop where
  ready : Ready base m.heap S
  brk_le : brk ≤ m.heap.brk
  above : ∀ x, Covered m.heap.hdr S x → brk ≤ x
  block : ∀ b ∈ m.live, Held brk m.heap b ∧ Apart base m.heap.hdr S b.header
  disjoint : m.live.Pairwise fun b c =>
    blockEnd m.heap.hdr b.header ≤ c.header ∨ blockEnd m.heap.hdr c.header ≤ b.header

def Inv (base brk : ℕ) (m : Machine) : Prop :=
  (0 < base ∧ base + unit ≤ brk) ∧
    (m.heap.freep = 0 ∧ m.heap.brk = brk ∧ m.live = [] ∧ brk ≤ physMem ∨ ∃ S, Kept base brk m S)

variable {base brk : ℕ} {m : Machine} {S : Finset ℕ}

/-- A request whose size in bytes, with the header, is an `int`. -/
def Fits (nbytes : BitVec 32) : Prop := nbytes.toNat ≤ 2 ^ 31 - 32

theorem Fits.units {nbytes : BitVec 32} (h : Fits nbytes) :
    0 < units nbytes.toNat ∧ units nbytes.toNat * unit < 2 ^ 31 ∧
      nbytes.toNat + unit ≤ unit * units nbytes.toNat := by
  unfold Fits at h
  unfold Umalloc.units unit
  omega

theorem Inv.safe (h : Inv base brk m) : Safe brk m := by
  obtain ⟨-, ⟨h0, -, hlive, -⟩ | ⟨S, hk⟩⟩ := h
  · refine ⟨?_, ?_, fun h => absurd h0 h⟩
    · rw [hlive]
      exact fun b hb => (by cases hb)
    · rw [hlive]
      exact List.Pairwise.nil
  · refine ⟨fun b hb => (hk.block b hb).1, hk.disjoint, fun _ => ⟨S, hk.ready.wellFormed, ?_⟩⟩
    intro b hb a ha
    rcases (hk.block b hb).2.apart a ha with h₁ | h₁
    · exact Or.inl h₁.2
    · exact Or.inr h₁

theorem Held.congr {s s' : Heap} {b : Live} (h : Held brk s b) (hhdr : s'.hdr b.header = s.hdr b.header)
    (hbrk : s.brk ≤ s'.brk) : Held brk s' b := by
  have hend : blockEnd s'.hdr b.header = blockEnd s.hdr b.header := by
    rw [blockEnd, hhdr, blockEnd]
  exact ⟨h.header, by rw [hend]; exact h.inside, by rw [hend]; exact h.below.trans hbrk⟩

theorem Held.header_eq {s : Heap} {b : Live} (h : Held brk s b) :
    b.header + unit = b.ptr ∧ brk ≤ b.header := by
  have := h.header
  unfold Live.header
  omega

theorem Held.apart {s : Heap} {b : Live} (h : Held brk s b) (hready : Ready base s S)
    (hbase : base + unit ≤ brk) (hsize : 0 < (s.hdr b.header).size)
    (hcov : ∀ x, b.header ≤ x → x < blockEnd s.hdr b.header → ¬Covered s.hdr S x) :
    Apart base s.hdr S b.header := by
  apply hready.apart_of_not_covered hsize _ (h.below.trans hready.brk_le) hcov
  have := h.header_eq
  omega

theorem Kept.malloc {s' : Heap} {S' : Finset ℕ} {q n nbytes : ℕ} (h : Kept base brk m S)
    (hbase : base + unit ≤ brk) (hg : Given base m.heap s' S S' q n) (hn : 0 < n)
    (hbytes : nbytes + unit ≤ unit * n) :
    Kept base brk ⟨s', ⟨q + unit, nbytes⟩ :: m.live⟩ S' := by
  have hend : blockEnd s'.hdr q = q + unit * n := by rw [blockEnd, hg.size]
  have hpos : 0 < unit * n := Nat.mul_pos unit_pos hn
  -- the bytes that are free after the call, or handed out by it, were free or are new
  have hold : ∀ x, Covered s'.hdr S' x ∨ q ≤ x ∧ x < q + unit * n →
      (Covered m.heap.hdr S x ∨ m.heap.brk ≤ x) ∧ x < s'.brk ∧ brk ≤ x := by
    intro x hx
    rcases (hg.covered x).mpr hx with hc | hc
    · refine ⟨Or.inl hc, ?_, h.above x hc⟩
      obtain ⟨a, ha, -, hlt⟩ := hc
      have h₁ := (h.ready.under a ha).2
      have h₂ := hg.brk_le
      omega
    · have := h.brk_le
      exact ⟨Or.inr hc.1, hc.2, by omega⟩
  have hframe : ∀ b ∈ m.live, s'.hdr b.header = m.heap.hdr b.header := by
    intro b hb
    obtain ⟨hheld, hapart⟩ := h.block b hb
    have hlt := hapart.lt_blockEnd
    have hbelow := hheld.below
    have := unit_pos
    exact hg.frame _ hapart.not_mem (hapart.not_covered le_rfl (by omega)) (by omega)
  have hends : ∀ b ∈ m.live, blockEnd s'.hdr b.header = blockEnd m.heap.hdr b.header := by
    intro b hb
    rw [blockEnd, hframe b hb, blockEnd]
  have hout : ∀ b ∈ m.live, ∀ x, b.header ≤ x → x < blockEnd m.heap.hdr b.header →
      ¬(Covered s'.hdr S' x ∨ q ≤ x ∧ x < q + unit * n) := by
    intro b hb x hle hlt hx
    obtain ⟨hheld, hapart⟩ := h.block b hb
    have hbelow := hheld.below
    rcases (hold x hx).1 with hc | hc
    · exact hapart.not_covered hle hlt hc
    · omega
  have hheader : (⟨q + unit, nbytes⟩ : Live).header = q := Nat.add_sub_cancel q unit
  have hlast := hold (q + unit * n - 1) (Or.inr ⟨by omega, by omega⟩)
  have hfirst := hold q (Or.inr ⟨le_rfl, by omega⟩)
  constructor
  · exact hg.ready
  · exact h.brk_le.trans hg.brk_le
  · exact fun x hx => (hold x (Or.inl hx)).2.2
  · intro b hb
    rcases List.mem_cons.mp hb with rfl | hb
    · rw [hheader]
      refine ⟨⟨?_, ?_, ?_⟩, hg.block⟩
      · show brk + unit ≤ q + unit
        omega
      · rw [hheader]
        show q + unit + nbytes ≤ blockEnd s'.hdr q
        omega
      · rw [hheader]
        show blockEnd s'.hdr q ≤ s'.brk
        omega
    · obtain ⟨hheld, hapart⟩ := h.block b hb
      have hheld' := hheld.congr (hframe b hb) hg.brk_le
      refine ⟨hheld', hheld'.apart hg.ready hbase ?_ ?_⟩
      · rw [hframe b hb]
        exact hapart.size_pos
      · intro x hle hlt hc
        rw [hends b hb] at hlt
        exact hout b hb x hle hlt (Or.inl hc)
  · rw [List.pairwise_cons]
    constructor
    · intro b hb
      obtain ⟨hheld, hapart⟩ := h.block b hb
      have hlt := hapart.lt_blockEnd
      have := unit_pos
      rw [hheader]
      show blockEnd s'.hdr q ≤ b.header ∨ blockEnd s'.hdr b.header ≤ q
      rw [hends b hb, hend]
      apply le_or_le_of_disjoint (by omega) (by omega)
      exact fun x h₁ h₂ h₃ h₄ => hout b hb x h₃ h₄ (Or.inr ⟨h₁, h₂⟩)
    · apply h.disjoint.imp_of_mem
      intro b c hb hc hbc
      show blockEnd s'.hdr b.header ≤ c.header ∨ blockEnd s'.hdr c.header ≤ b.header
      rw [hends b hb, hends c hc]
      exact hbc

theorem Kept.free {s' : Heap} {S' : Finset ℕ} {b : Live} (h : Kept base brk m S)
    (hbase : base + unit ≤ brk) (hb : b ∈ m.live) (hlist : FreeList base s' S')
    (hf : Freed base m.heap.hdr s'.hdr S S' b.header) (hbrk : s'.brk = m.heap.brk) :
    Kept base brk ⟨s', m.live.erase b⟩ S' := by
  obtain ⟨hheld, hapart⟩ := h.block b hb
  obtain ⟨hptr, hlow⟩ := hheld.header_eq
  have hlt := hapart.lt_blockEnd
  have hunit := unit_pos
  have hbelow := hheld.below
  have hbounds : ∀ x, Covered s'.hdr S' x → brk ≤ x ∧ x < m.heap.brk := by
    intro x hx
    rcases (hf.covered x).mp hx with hc | hc
    · refine ⟨h.above x hc, ?_⟩
      obtain ⟨a, ha, -, hlt'⟩ := hc
      have := (h.ready.under a ha).2
      omega
    · omega
  have hready : Ready base s' S' := by
    refine ⟨hlist, ?_, hbrk ▸ h.ready.brk_le⟩
    intro a ha
    have haunit : a + unit ≤ s'.brk := by
      rcases Finset.mem_insert.mp (hf.subset ha) with rfl | haS
      · omega
      · have := (h.ready.under a haS).1
        omega
    refine ⟨haunit, ?_⟩
    by_contra hgt
    have hbyte := hbounds (blockEnd s'.hdr a - 1) ⟨a, ha, by omega, by omega⟩
    omega
  -- no block is held twice
  have hother : ∀ c ∈ m.live.erase b, c ∈ m.live ∧
      (blockEnd m.heap.hdr b.header ≤ c.header ∨ blockEnd m.heap.hdr c.header ≤ b.header) := by
    intro c hc
    have hperm := (List.perm_cons_erase hb).pairwise_iff (fun hbc => Or.symm hbc) |>.mp h.disjoint
    exact ⟨List.mem_of_mem_erase hc, (List.pairwise_cons.mp hperm).1 c hc⟩
  have hframe : ∀ c ∈ m.live.erase b, s'.hdr c.header = m.heap.hdr c.header := by
    intro c hc
    obtain ⟨hcl, hdis⟩ := hother c hc
    obtain ⟨-, hcapart⟩ := h.block c hcl
    have hclt := hcapart.lt_blockEnd
    apply hf.frame
    rw [Finset.mem_insert, not_or]
    exact ⟨by omega, hcapart.not_mem⟩
  have hends : ∀ c ∈ m.live.erase b, blockEnd s'.hdr c.header = blockEnd m.heap.hdr c.header := by
    intro c hc
    rw [blockEnd, hframe c hc, blockEnd]
  constructor
  · exact hready
  · exact hbrk ▸ h.brk_le
  · exact fun x hx => (hbounds x hx).1
  · intro c hc
    obtain ⟨hcl, hdis⟩ := hother c hc
    obtain ⟨hcheld, hcapart⟩ := h.block c hcl
    have hcheld' := hcheld.congr (hframe c hc) hbrk.ge
    refine ⟨hcheld', hcheld'.apart hready hbase ?_ ?_⟩
    · rw [hframe c hc]
      exact hcapart.size_pos
    · intro x hle hlt' hx
      rw [hends c hc] at hlt'
      rcases (hf.covered x).mp hx with hcov | hcov
      · exact hcapart.not_covered hle hlt' hcov
      · omega
  · apply (h.disjoint.sublist List.erase_sublist).imp_of_mem
    intro c d hc hd hcd
    show blockEnd s'.hdr c.header ≤ d.header ∨ blockEnd s'.hdr d.header ≤ c.header
    rw [hends c hc, hends d hd]
    exact hcd

theorem Kept.freep_ne (h : Kept base brk m S) (hbase : 0 < base) : m.heap.freep ≠ 0 := by
  have := h.ready.base_le _ h.ready.mem
  omega

theorem Kept.malloc_step {s : Heap} {p fuel limit : ℕ} {nbytes : BitVec 32} (h : Kept base brk m S)
    (hbase : base + unit ≤ brk) (hfits : Fits nbytes) (hlimit : limit ≤ physMem)
    (hret : mallocLoop fuel limit (units nbytes.toNat) fuel m.heap m.heap.freep
      (m.heap.hdr m.heap.freep).ptr = .ok (p, s)) :
    ∃ S', Kept base brk ⟨s, if p = 0 then m.live else ⟨p, nbytes.toNat⟩ :: m.live⟩ S' := by
  obtain ⟨hpos, hint, hbytes⟩ := hfits.units
  have hmax : limit ≤ heapMax := hlimit.trans (by decide)
  obtain ⟨big, hbig⟩ : ∃ big, big = max fuel (2 * S.card + 3) := ⟨_, rfl⟩
  have hret' := mallocLoop_mono (show fuel ≤ big by omega) (show fuel ≤ big by omega) hret
  rcases mallocLoop_spec h.ready hpos hint hmax (show S.card ≤ big by omega)
    (show 2 * S.card + 2 < big by omega) with ⟨hnull, -⟩ | ⟨s', S', q, hrun, hgiven⟩
  · rw [hret', Except.ok.injEq, Prod.mk.injEq] at hnull
    obtain ⟨rfl, rfl⟩ := hnull
    exact ⟨S, h⟩
  · rw [hret', Except.ok.injEq, Prod.mk.injEq] at hrun
    obtain ⟨rfl, rfl⟩ := hrun
    have hne : q + unit ≠ 0 := by
      rw [unit]
      omega
    rw [if_neg hne]
    exact ⟨S', h.malloc hbase hgiven hpos hbytes⟩

/-- A call of `malloc` or `free` keeps the live blocks and the free list apart. -/
theorem Inv.step {m' : Machine} (h : Inv base brk m) (hst : Step base Fits m m') : Inv base brk m' := by
  obtain ⟨⟨hpos, hbase⟩, hm⟩ := h
  refine ⟨⟨hpos, hbase⟩, Or.inr ?_⟩
  cases hst with
  | malloc hfits hlimit hret =>
    rcases hm with ⟨h0, hbrk, hlive, hphys⟩ | ⟨S, hk⟩
    · have hready : Ready base (start base m.heap) {base} :=
        start_ready h0 (by omega) (by rw [hbrk]; exact hphys.trans (by decide))
      have hstart : (start base m.heap).brk = brk := by rw [start, if_pos h0, hbrk]
      have hk : Kept base brk ⟨start base m.heap, []⟩ {base} := by
        refine ⟨hready, hstart.ge, ?_, fun b hb => (by cases hb), List.Pairwise.nil⟩
        rintro x ⟨a, ha, hle, hlt⟩
        have hend : blockEnd (start base m.heap).hdr a = a := by
          rw [blockEnd, (hready.size_eq_zero a ha).mpr (Finset.mem_singleton.mp ha), Nat.mul_zero,
            Nat.add_zero]
        have hlt' : x < blockEnd (start base m.heap).hdr a := hlt
        omega
      rw [hlive]
      exact hk.malloc_step hbase hfits hlimit hret
    · have hstart : start base m.heap = m.heap := by rw [start, if_neg (hk.freep_ne hpos)]
      apply hk.malloc_step hbase hfits hlimit
      rw [malloc, hstart] at hret
      exact hret
  | free hb hret =>
    rcases hm with ⟨-, -, hlive, -⟩ | ⟨S, hk⟩
    · rw [hlive] at hb
      cases hb
    · rename_i b fuel s
      obtain ⟨hheld, hapart⟩ := hk.block b hb
      obtain ⟨hptr, -⟩ := hheld.header_eq
      have hbig := free_mono (le_max_left fuel S.card) hret
      obtain ⟨s', S', hfree, hlist, hfreed, hbrk, -⟩ :=
        free_spec hk.ready.toFreeList hapart (le_max_right fuel S.card)
      rw [hptr, hbig, Option.some.injEq] at hfree
      subst hfree
      exact ⟨S', hk.free hbase hb hlist hfreed hbrk⟩

/-- If every request fits, `malloc` never hands out memory that it does not have: in every state of a
run the live blocks are memory from `sbrk` below the break, disjoint from each other and from the
blocks on the free list. -/
theorem malloc_safe (h : (program base brk Fits).Reachable m) : Safe brk m := by
  have hinv : Inv base brk m := by
    refine System.Reachable.invariant ?_ ?_ h
    · rintro m ⟨h0, hbrk, hlive, hpos, hbase, hphys⟩
      exact ⟨⟨hpos, hbase⟩, Or.inl ⟨h0, hbrk, hlive, hphys⟩⟩
    · exact fun m m' _ hm hst => hm.step hst
  exact hinv.safe

/-- A heap before the first call, with `base` at address 16 and the break at 4096. -/
def emptyHeap : Heap := ⟨fun _ => ⟨0, 0⟩, 0, 4096⟩

theorem malloc_safe_first :
    ∃ m, (program 16 4096 Fits).Reachable m ∧ m.heap.freep ≠ 0 ∧ Safe 4096 m := by
  have hinit : (program 16 4096 Fits).Reachable ⟨emptyHeap, []⟩ :=
    System.Reachable.init ⟨rfl, rfl, rfl, by decide, by decide, by decide⟩
  have hstep : Step 16 Fits ⟨emptyHeap, []⟩ ⟨_, _⟩ :=
    @Step.malloc 16 Fits ⟨emptyHeap, []⟩ 40 5 100000 _ _
      (show (40 : BitVec 32).toNat ≤ 2 ^ 31 - 32 by decide) (by decide) rfl
  exact ⟨_, hinit.step hstep, by decide, malloc_safe (hinit.step hstep)⟩

/-- A request of 2^32 - 1 bytes: `sbrk` is called with 16. -/
theorem malloc_too_large :
    ∃ s, malloc 16 5 100000 emptyHeap (BitVec.ofNat 32 (2 ^ 32 - 1)) = .ok (4112, s) ∧
      s.brk = 4112 ∧
      ∃ m, (program 16 4096 fun _ => True).Reachable m ∧ ¬Safe 4096 m := by
  refine ⟨_, rfl, rfl, ?_⟩
  have hinit : (program 16 4096 fun _ => True).Reachable ⟨emptyHeap, []⟩ :=
    System.Reachable.init ⟨rfl, rfl, rfl, by decide, by decide, by decide⟩
  have hstep : Step 16 (fun _ => True) ⟨emptyHeap, []⟩ ⟨_, _⟩ :=
    @Step.malloc 16 (fun _ => True) ⟨emptyHeap, []⟩ (BitVec.ofNat 32 (2 ^ 32 - 1)) 5 100000 _ _
      trivial (by decide) rfl
  refine ⟨_, hinit.step hstep, fun hsafe => ?_⟩
  exact absurd (hsafe.held ⟨4112, 2 ^ 32 - 1⟩ List.mem_cons_self).below (by decide)

end Xv6.Umalloc
