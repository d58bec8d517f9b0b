import Xv6.Lib.Ring
import Xv6.Sched.Pipe

/-! The bytes that go through a pipe. The counters `nread` and `nwrite` run freely and wrap; what has
been put in is what has been taken out, followed by what is in the buffer. -/
namespace Xv6.Sched

open Kernel Lib

section Data

variable {N : ℕ} {σ K : Type} {client : Client σ K} {init : σ → Prop} {s t : Kernel N σ K}

end Data

namespace Pipe

def ring (pi : Pipe) (i : ℕ) : UInt8 := pi.data ⟨i % pipesize, Nat.mod_lt _ (by decide)⟩

def buffered (pi : Pipe) : List UInt8 := Ring.window pipesize pi.ring pi.nread pi.nwrite

/-- No more bytes than there is room for, and those that have been put in and not been taken out. -/
structure Streams (pi : Pipe) : Prop where
  count_le : Ring.count pi.nread pi.nwrite ≤ pipesize
  put : pi.put = pi.taken ++ pi.buffered

variable {pi : Pipe}

theorem ring_slot (n : BitVec 32) : pi.ring (Ring.slot pipesize n) = pi.data (slot n) := by
  unfold ring
  congr 1
  exact Fin.ext (Nat.mod_mod _ _)

theorem ring_store (ch : UInt8) (n : BitVec 32) :
    (pi.store ch).ring (Ring.slot pipesize n) =
      Function.update pi.ring (Ring.slot pipesize pi.nwrite) ch (Ring.slot pipesize n) := by
  rw [ring_slot]
  show Function.update pi.data (slot pi.nwrite) ch (slot n) = _
  by_cases h : slot n = slot pi.nwrite
  · have hs : Ring.slot pipesize n = Ring.slot pipesize pi.nwrite := congrArg Fin.val h
    rw [h, hs, Function.update_self, Function.update_self]
  · have hs : Ring.slot pipesize n ≠ Ring.slot pipesize pi.nwrite := fun he => h (Fin.ext he)
    rw [Function.update_of_ne h, Function.update_of_ne hs, ring_slot]

theorem count_full (h : Ring.count pi.nread pi.nwrite = pipesize) : pi.Full := by
  unfold Full
  rw [← h, Ring.add_count]

theorem Streams.store (h : pi.Streams) (hf : ¬pi.Full) (ch : UInt8) : (pi.store ch).Streams := by
  have hlt : Ring.count pi.nread pi.nwrite < pipesize :=
    lt_of_le_of_ne h.count_le fun he => hf (count_full he)
  have hwrap : Ring.count pi.nread pi.nwrite + 1 < 2 ^ 32 := by
    unfold pipesize at hlt
    omega
  have hring : Ring.window pipesize (pi.store ch).ring pi.nread pi.nwrite =
      Ring.window pipesize pi.ring pi.nread pi.nwrite := by
    refine (Ring.window_congr fun i _ => ?_).trans (Ring.window_update (by decide) hlt ch)
    exact ring_store ch _
  refine ⟨?_, ?_⟩
  · show Ring.count pi.nread (pi.nwrite + 1) ≤ pipesize
    rw [Ring.count_succ hwrap]
    exact hlt
  · show pi.put ++ [ch] = pi.taken ++ Ring.window pipesize (pi.store ch).ring pi.nread (pi.nwrite + 1)
    rw [Ring.window_succ hwrap, hring, ring_store, Function.update_self, h.put, buffered, List.append_assoc]

theorem Streams.fetch (h : pi.Streams) (he : ¬pi.Empty) : pi.fetch.Streams := by
  have hcount := Ring.count_pop he
  refine ⟨?_, ?_⟩
  · show Ring.count (pi.nread + 1) pi.nwrite ≤ pipesize
    have := h.count_le
    omega
  · show pi.put = pi.taken ++ [pi.data (slot pi.nread)] ++
      Ring.window pipesize pi.ring (pi.nread + 1) pi.nwrite
    rw [h.put, buffered, Ring.window_pop he, ring_slot, List.append_assoc]
    rfl

theorem Streams.shut (h : pi.Streams) (writable : Bool) : (pi.shut writable).Streams := by
  cases writable with
  | false => exact ⟨h.count_le, h.put⟩
  | true => exact ⟨h.count_le, h.put⟩

theorem Streams.moves {x y : PipePc} {e : Pipe} (hm : PipeMoves x pi y e) (h : pi.Streams) :
    e.Streams := by
  cases hm with
  | store n i st pi ch hf => exact h.store hf ch
  | fetch n i pi hi he | copyout n i pi hi he => exact h.fetch he
  | close w pi => exact h.shut w
  | _ => exact h

end Pipe

end Xv6.Sched
