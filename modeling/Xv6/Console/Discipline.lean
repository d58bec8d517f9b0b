import Xv6.Console.Machine

/-! The line discipline: what `consoleintr` does to the indices and to the bytes that have been
committed, and what the calls of `consoleread` deliver. -/
namespace Xv6.Console

open Lib (Ring.cell Ring.count Ring.entries Ring.count_add Ring.count_sub Ring.count_pred
  Ring.count_succ Ring.count_pop Ring.window_append Ring.entries_update Ring.entries_pop)

namespace Cons

variable {cons : Cons}

/-- `r <= w <= e <= r + INPUT_BUF_SIZE`, counted from `r`. -/
structure Ordered (cons : Cons) : Prop where
  w_le : Ring.count cons.r cons.w ≤ Ring.count cons.r cons.e
  e_le : Ring.count cons.r cons.e ≤ inputBufSize

theorem Ordered.count_e (h : cons.Ordered) : Ring.count cons.r cons.e =
    Ring.count cons.r cons.w + Ring.count cons.w cons.e := by
  have := Ring.count_sub h.w_le
  have := h.w_le
  omega

theorem Ordered.of_add (h : Ring.count cons.r cons.w + Ring.count cons.w cons.e ≤ inputBufSize) :
    cons.Ordered := by
  have hsum : Ring.count cons.r cons.e = Ring.count cons.r cons.w + Ring.count cons.w cons.e :=
    Ring.count_add (by unfold inputBufSize at h; omega)
  exact ⟨by omega, by omega⟩

/-- What the handler does to the bytes that readers can take: it appends to them. -/
structure Commits (cons cons' : Cons) : Prop where
  ordered : cons'.Ordered
  r : cons'.r = cons.r
  pending : cons'.pending = cons.pending ++ Ring.entries cons'.buf cons.w cons'.w

theorem Ordered.erase (h : cons.Ordered) {e : BitVec 32}
    (he : Ring.count cons.w e ≤ Ring.count cons.w cons.e) : cons.Commits { cons with e := e } := by
  refine ⟨Ordered.of_add ?_, rfl, ?_⟩
  · have := h.count_e
    have := h.e_le
    show Ring.count cons.r cons.w + Ring.count cons.w e ≤ inputBufSize
    omega
  · simp [pending, Ring.entries]

theorem killLine_eq (cons : Cons) :
    ∃ e, cons.killLine = { cons with e := e } ∧ Ring.count cons.w e ≤ Ring.count cons.w cons.e := by
  induction cons using killLine.induct with
  | case1 cons h ih =>
    obtain ⟨e, he, hle⟩ := ih
    have hpred := Ring.count_pred h.1.symm
    refine ⟨e, ?_, ?_⟩
    · rw [killLine, dif_pos h, he]
    · simp only at hle
      omega
  | case2 cons h => exact ⟨cons.e, by rw [killLine, dif_neg h], le_rfl⟩

theorem Ordered.store (h : cons.Ordered) (hroom : Ring.count cons.r cons.e < inputBufSize)
    (c : UInt8) : cons.Commits (cons.store c) := by
  have hsum := h.count_e
  have hsize : inputBufSize < 2 ^ 32 := by decide
  have hwrap : Ring.count cons.w cons.e + 1 < 2 ^ 32 := by omega
  have hsucc := Ring.count_succ hwrap
  have hkeep : Ring.entries (cons.store c).buf cons.r cons.w = cons.pending :=
    Ring.entries_update (by decide) h.w_le hroom c
  by_cases hc : c = newline ∨ c = ctrlD ∨ Ring.count cons.r (cons.e + 1) = inputBufSize
  · have hw : (cons.store c).w = cons.e + 1 := if_pos hc
    have hr : Ring.count cons.r (cons.e + 1) = Ring.count cons.r cons.w +
        Ring.count cons.w (cons.e + 1) := Ring.count_add (by omega)
    refine ⟨Ordered.of_add ?_, rfl, ?_⟩
    · show Ring.count cons.r (cons.store c).w + Ring.count (cons.store c).w (cons.e + 1) ≤ _
      rw [hw, Lib.Ring.count_self]
      omega
    · rw [← hkeep]
      show Ring.entries (cons.store c).buf cons.r (cons.store c).w = _
      rw [hw]
      exact Ring.window_append (by omega)
  · have hw : (cons.store c).w = cons.w := if_neg hc
    refine ⟨Ordered.of_add ?_, rfl, ?_⟩
    · show Ring.count cons.r (cons.store c).w + Ring.count (cons.store c).w (cons.e + 1) ≤ _
      rw [hw]
      omega
    · show Ring.entries (cons.store c).buf cons.r (cons.store c).w = _
      rw [hw, hkeep]
      simp [Ring.entries]

theorem Ordered.consoleintr (h : cons.Ordered) (c : UInt8) : cons.Commits (cons.consoleintr c) := by
  have hsame : cons.Commits cons := h.erase le_rfl
  unfold Cons.consoleintr
  split_ifs with hP hU hH he hroom
  · exact hsame
  · obtain ⟨e, hk, hle⟩ := killLine_eq cons
    rw [hk]
    exact h.erase hle
  · have := Ring.count_pred (Ne.symm he)
    exact h.erase (by omega)
  · exact hsame
  · exact h.store hroom.2 _
  · exact h.store hroom.2 _
  · exact hsame

theorem Ordered.fetch (h : cons.Ordered) (he : cons.r ≠ cons.w) :
    Cons.Ordered { cons with r := cons.r + 1 } ∧
      cons.pending = cons.get cons.r :: Cons.pending { cons with r := cons.r + 1 } := by
  refine ⟨Ordered.of_add ?_, Ring.entries_pop he⟩
  have := Ring.count_pop he
  have := h.count_e
  have := h.e_le
  show Ring.count (cons.r + 1) cons.w + Ring.count cons.w cons.e ≤ inputBufSize
  omega

end Cons

end Xv6.Console
