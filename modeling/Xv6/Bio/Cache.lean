import Xv6.Bio.Interface
import Xv6.Param

/-! `struct bcache` of `kernel/bio.c` and the critical sections of its lock. -/
namespace Xv6

def rootDev : ℕ := 1

namespace Bio

/-- `struct buf` without its sleep lock and its list links. -/
structure Buf where
  valid : Bool
  dev : ℕ
  blockno : ℕ
  refcnt : ℕ
  data : Block

/-- `lru` is the list of all buffers from `head.next` on: most recently used first. -/
structure Bcache where
  buf : Fin nbuf → Buf
  lru : List (Fin nbuf)

namespace Bcache

variable {c c' : Bcache} {i j : Fin nbuf} {dev blockno : ℕ}

def set (c : Bcache) (i : Fin nbuf) (b : Buf) : Bcache :=
  { c with buf := Function.update c.buf i b }

/-- Buffer `i` caches the block. -/
def Names (c : Bcache) (i : Fin nbuf) (dev blockno : ℕ) : Prop :=
  (c.buf i).dev = dev ∧ (c.buf i).blockno = blockno

instance : Decidable (c.Names i dev blockno) := inferInstanceAs (Decidable (_ ∧ _))

/-- `bget` up to `acquiresleep`: the buffer that caches the block, or else the least recently used
one without references. -/
def bget (c : Bcache) (dev blockno : ℕ) : Except String (Fin nbuf × Bcache) :=
  match c.lru.find? fun i => decide (c.Names i dev blockno) with
  | some i => .ok (i, c.set i { c.buf i with refcnt := (c.buf i).refcnt + 1 })
  | none =>
    match c.lru.reverse.find? fun i => decide ((c.buf i).refcnt = 0) with
    | some i => .ok (i, c.set i
        { c.buf i with dev := dev, blockno := blockno, valid := false, refcnt := 1 })
    | none => .error "bget: no buffers"

def brelse (c : Bcache) (i : Fin nbuf) : Bcache :=
  let c := c.set i { c.buf i with refcnt := (c.buf i).refcnt - 1 }
  if (c.buf i).refcnt = 0 then { c with lru := i :: c.lru.erase i } else c

def bpin (c : Bcache) (i : Fin nbuf) : Bcache :=
  c.set i { c.buf i with refcnt := (c.buf i).refcnt + 1 }

def bunpin (c : Bcache) (i : Fin nbuf) : Bcache :=
  c.set i { c.buf i with refcnt := (c.buf i).refcnt - 1 }

@[simp] theorem set_buf (b : Buf) : (c.set i b).buf = Function.update c.buf i b := rfl

@[simp] theorem set_lru (b : Buf) : (c.set i b).lru = c.lru := rfl

theorem brelse_buf : (c.brelse i).buf =
    Function.update c.buf i { c.buf i with refcnt := (c.buf i).refcnt - 1 } := by
  unfold brelse
  dsimp only
  split_ifs <;> rfl

theorem mem_brelse_lru : j ∈ (c.brelse i).lru ↔ j = i ∧ (c.buf i).refcnt - 1 = 0 ∨ j ∈ c.lru := by
  unfold brelse
  dsimp only
  simp only [set_buf, Function.update_self, set_lru]
  split_ifs with h0
  · by_cases hj : j = i
    · simp [hj, h0]
    · simp [hj, List.mem_erase_of_ne hj]
  · simp [h0]

/-- The two caches differ in reference counts and the LRU list only. -/
def Recounts (c c' : Bcache) : Prop := ∀ i, ∃ r, c'.buf i = { c.buf i with refcnt := r }

theorem Recounts.names (h : c.Recounts c') : c'.Names i dev blockno ↔ c.Names i dev blockno := by
  obtain ⟨r, hr⟩ := h i
  simp [Names, hr]

theorem recounts_set (c : Bcache) (i : Fin nbuf) (r : ℕ) :
    c.Recounts (c.set i { c.buf i with refcnt := r }) := by
  intro j
  by_cases hj : j = i
  · exact ⟨r, by rw [hj, set_buf, Function.update_self]⟩
  · exact ⟨(c.buf j).refcnt, by simp [hj]⟩

theorem recounts_brelse (c : Bcache) (i : Fin nbuf) : c.Recounts (c.brelse i) := by
  intro j
  rw [brelse_buf]
  exact recounts_set c i _ j

theorem bget_ok (h : c.bget dev blockno = .ok (i, c')) :
    (c.Names i dev blockno ∧ c' = c.set i { c.buf i with refcnt := (c.buf i).refcnt + 1 }) ∨
    (∀ j ∈ c.lru, ¬c.Names j dev blockno) ∧ (c.buf i).refcnt = 0 ∧ c' = c.set i
      { c.buf i with dev := dev, blockno := blockno, valid := false, refcnt := 1 } := by
  unfold bget at h
  split at h
  · next k hk =>
    have hn := List.find?_some hk
    simp only [decide_eq_true_eq] at hn
    simp only [Except.ok.injEq, Prod.mk.injEq] at h
    obtain ⟨rfl, rfl⟩ := h
    exact Or.inl ⟨hn, rfl⟩
  · next hnone =>
    split at h
    · next k hk =>
      have h0 := List.find?_some hk
      simp only [decide_eq_true_eq] at h0
      simp only [Except.ok.injEq, Prod.mk.injEq] at h
      obtain ⟨rfl, rfl⟩ := h
      refine Or.inr ⟨fun j hj hn => ?_, h0, rfl⟩
      have := List.find?_eq_none.mp hnone j hj
      simp [hn] at this
    · simp at h

end Bcache
end Bio
end Xv6
