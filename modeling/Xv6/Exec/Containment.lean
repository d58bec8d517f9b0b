import Xv6.Exec.Segments

/-! Which files `exec` accepts. Offsets are truncated to 32 bits before a read, so that a file whose
headers or segments lie outside it may pass. -/
namespace Xv6.Exec

open Lib Vm Proc

/-- No offset of a program header, and none of a segment with bytes in the file, needs more than
32 bits. -/
structure NoWrap (c : List UInt8) : Prop where
  headers_lt : ∀ i < (elfhdr c).phnum, (elfhdr c).phoff + proghdrSize * i < 2 ^ 32
  off_lt : ∀ ph ∈ headers c, ph.type = elfProgLoad → 0 < ph.filesz → ph.off < 2 ^ 32

variable {c : List UInt8} {img : Image} {ph : Proghdr} {phs : List Proghdr} {k n off sz : ℕ}
  {x : ℕ × Image}

theorem NoWrap.headerOff (h : NoWrap c) (hk : k < (elfhdr c).phnum) :
    headerOff c k = (elfhdr c).phoff + proghdrSize * k :=
  Nat.mod_eq_of_lt (h.headers_lt k hk)

theorem NoWrap.headersRead (h : NoWrap c) : headersRead c = headers c := by
  apply List.map_congr_left
  intro i hi
  rw [h.headerOff (List.mem_range.mp hi)]

variable {L : Layout} {S : State} {t : Radix.Tree fanout ℕ 2} {A : Multiset ℕ} {ip : ℕ}

end Xv6.Exec
