import Xv6.Str

/-! `write_with_escape_sequences` of `user/echo.c`, which scans a string in the memory of the process. -/
namespace Xv6.User.Echo

/-- The `switch` on the character after a backslash: the control character that an escape denotes. -/
def escape (c : UInt8) : Option UInt8 :=
  if c = 98 then some 8
  else if c = 110 then some 10
  else if c = 116 then some 9
  else if c = 114 then some 13
  else if c = 118 then some 11
  else if c = 92 then some 92
  else none

def writeRound (mem : ℕ → UInt8) (str : ℕ) : Str × ℕ :=
  if mem str = 92 then
    match escape (mem (str + 1)) with
    | some c => ([c], str + 2)
    | none => (92 :: if mem (str + 1) = 0 then [] else [mem (str + 1)], str + 2)
  else ([mem str], str + 1)

def roundReads (mem : ℕ → UInt8) (str : ℕ) : List ℕ :=
  if mem str = 92 then [str, str + 1] else [str]

/-- The characters written and the addresses read, once the loop has ended; `none` while it has not
within `fuel` rounds. -/
def writeWithEscapeSequences (mem : ℕ → UInt8) : ℕ → ℕ → Option (Str × List ℕ)
  | 0, _ => none
  | fuel + 1, str =>
    if mem str = 0 then some ([], [str])
    else do
      let (out, reads) ← writeWithEscapeSequences mem fuel (writeRound mem str).2
      some ((writeRound mem str).1 ++ out, roundReads mem str ++ reads)

/-- The string with its escapes replaced, from left to right. -/
def unescape : Str → Str
  | [] => []
  | [c] => [c]
  | c :: d :: s =>
    if c = 92 then
      match escape d with
      | some e => e :: unescape s
      | none => 92 :: d :: unescape s
    else c :: unescape (d :: s)

/-- The last character is a backslash that no backslash before it escapes. -/
def dangling : Str → Bool
  | [] => false
  | [c] => c = 92
  | c :: d :: s => if c = 92 then dangling s else dangling (d :: s)

def StringAt (mem : ℕ → UInt8) : ℕ → Str → Prop
  | a, [] => mem a = 0
  | a, c :: s => c ≠ 0 ∧ mem a = c ∧ StringAt mem (a + 1) s

/-- The loop ends, has written the unescaped string, and has read nothing after the NUL. -/
def Exact (mem : ℕ → UInt8) (a : ℕ) (s : Str) : Prop :=
  ∃ fuel reads, writeWithEscapeSequences mem fuel a = some (unescape s, reads) ∧
    ∀ i ∈ reads, i ≤ a + s.length

variable {mem : ℕ → UInt8} {a : ℕ} {s : Str}

theorem write_nul (fuel : ℕ) (h : mem a = 0) :
    writeWithEscapeSequences mem (fuel + 1) a = some ([], [a]) := by
  rw [writeWithEscapeSequences, if_pos h]

theorem write_cons {fuel : ℕ} {out : Str} {reads : List ℕ} (h0 : mem a ≠ 0) :
    writeWithEscapeSequences mem (fuel + 1) a = some (out, reads) ↔
      ∃ out' reads', writeWithEscapeSequences mem fuel (writeRound mem a).2 = some (out', reads') ∧
        out = (writeRound mem a).1 ++ out' ∧ reads = roundReads mem a ++ reads' := by
  rw [writeWithEscapeSequences, if_neg h0]
  simp only [Option.bind_eq_bind, Option.bind_eq_some_iff, Prod.exists, Option.some.injEq,
    Prod.mk.injEq]
  constructor
  · rintro ⟨out', reads', hrun, hout, hreads⟩
    exact ⟨out', reads', hrun, hout.symm, hreads.symm⟩
  · rintro ⟨out', reads', hrun, hout, hreads⟩
    exact ⟨out', reads', hrun, hout.symm, hreads.symm⟩

theorem start_mem_reads {fuel : ℕ} {out : Str} {reads : List ℕ}
    (h : writeWithEscapeSequences mem fuel a = some (out, reads)) : a ∈ reads := by
  cases fuel with
  | zero => cases h
  | succ fuel =>
    by_cases h0 : mem a = 0
    · rw [write_nul fuel h0] at h
      cases h
      exact List.mem_singleton_self a
    · obtain ⟨out', reads', -, -, rfl⟩ := (write_cons h0).mp h
      apply List.mem_append_left
      unfold roundReads
      split_ifs
      · exact List.mem_cons_self
      · exact List.mem_singleton_self a

theorem writeRound_cons {c d : UInt8} (h : StringAt mem a (c :: d :: s)) :
    (c = 92 → writeRound mem a = ((escape d).elim [92, d] fun e => [e], a + 2) ∧
      roundReads mem a = [a, a + 1]) ∧
    (c ≠ 92 → writeRound mem a = ([c], a + 1) ∧ roundReads mem a = [a]) := by
  obtain ⟨-, ha, hd, ha', -⟩ := h
  constructor
  · intro hc
    unfold writeRound roundReads
    rw [ha, if_pos hc, if_pos hc, ha']
    cases escape d with
    | none => exact ⟨by simp [hd], rfl⟩
    | some e => exact ⟨rfl, rfl⟩
  · intro hc
    unfold writeRound roundReads
    rw [ha, if_neg hc, if_neg hc]
    exact ⟨rfl, rfl⟩

theorem unescape_backslash (d : UInt8) (s : Str) :
    unescape (92 :: d :: s) = ((escape d).elim [92, d] fun e => [e]) ++ unescape s := by
  rw [unescape, if_pos rfl]
  cases escape d with
  | none => rfl
  | some e => rfl

theorem unescape_cons {c : UInt8} (hc : c ≠ 92) (d : UInt8) (s : Str) :
    unescape (c :: d :: s) = c :: unescape (d :: s) := by
  rw [unescape, if_neg hc]

theorem exact_cons {c d : UInt8} {next : ℕ} {s' : Str} {out : Str} (h0 : mem a ≠ 0)
    (hround : writeRound mem a = (out, next)) (hreads : ∀ i ∈ roundReads mem a, i ≤ next)
    (hout : unescape (c :: d :: s) = out ++ unescape s')
    (hnext : next + s'.length = a + (c :: d :: s).length) (h : Exact mem next s') :
    Exact mem a (c :: d :: s) := by
  obtain ⟨fuel, reads, hrun, hin⟩ := h
  refine ⟨fuel + 1, roundReads mem a ++ reads, ?_, ?_⟩
  · apply (write_cons h0).mpr
    refine ⟨unescape s', reads, ?_, ?_, rfl⟩
    · rw [hround]
      exact hrun
    · rw [hround, hout]
  · intro i hi
    rcases List.mem_append.mp hi with hi | hi
    · have := hreads i hi
      omega
    · have := hin i hi
      omega

theorem exact_of_not_dangling (h : StringAt mem a s) (hd : dangling s = false) : Exact mem a s := by
  induction s using dangling.induct generalizing a with
  | case1 =>
    refine ⟨1, [a], write_nul 0 h, ?_⟩
    intro i hi
    exact le_of_eq (List.mem_singleton.mp hi)
  | case2 c =>
    obtain ⟨h0, hc, hnul⟩ := h
    have h92 : c ≠ 92 := by simpa [dangling] using hd
    refine ⟨2, [a, a + 1], (write_cons (hc ▸ h0)).mpr ⟨[], [a + 1], ?_, ?_, ?_⟩, ?_⟩
    · rw [writeRound, hc, if_neg h92]
      exact write_nul 0 hnul
    · rw [writeRound, hc, if_neg h92]
      rfl
    · rw [roundReads, hc, if_neg h92]
      rfl
    · intro i hi
      simp only [List.mem_cons, List.not_mem_nil, or_false] at hi
      simp only [List.length_singleton]
      omega
  | case3 d s ih =>
    obtain ⟨hround, hreads⟩ := (writeRound_cons h).1 rfl
    rw [dangling, if_pos rfl] at hd
    obtain ⟨h0, ha, -, -, hs⟩ := h
    apply exact_cons (ha ▸ h0) hround _ (unescape_backslash d s) _ (ih hs hd)
    · rw [hreads]
      intro i hi
      simp only [List.mem_cons, List.not_mem_nil, or_false] at hi
      omega
    · simp only [List.length_cons]
      omega
  | case4 c d s hc ih =>
    obtain ⟨hround, hreads⟩ := (writeRound_cons h).2 hc
    rw [dangling, if_neg hc] at hd
    obtain ⟨h0, ha, hs⟩ := h
    apply exact_cons (ha ▸ h0) hround _ (unescape_cons hc d s) _ (ih hs hd)
    · rw [hreads]
      intro i hi
      rw [List.mem_singleton.mp hi]
      omega
    · simp only [List.length_cons]
      omega

theorem reads_after_nul {fuel : ℕ} {out : Str} {reads : List ℕ} (h : StringAt mem a s)
    (hd : dangling s = true) (hrun : writeWithEscapeSequences mem fuel a = some (out, reads)) :
    a + s.length + 1 ∈ reads := by
  induction s using dangling.induct generalizing a fuel out reads with
  | case1 => cases hd
  | case2 c =>
    obtain ⟨h0, hc, hnul⟩ := h
    have h92 : c = 92 := by simpa [dangling] using hd
    have hnext : (writeRound mem a).2 = a + 2 := by
      rw [writeRound, hc, if_pos h92, hnul]
      rfl
    cases fuel with
    | zero => cases hrun
    | succ fuel =>
      obtain ⟨out', reads', hrun', -, rfl⟩ := (write_cons (hc ▸ h0)).mp hrun
      rw [hnext] at hrun'
      exact List.mem_append_right _ (start_mem_reads hrun')
  | case3 d s ih =>
    obtain ⟨hround, -⟩ := (writeRound_cons h).1 rfl
    rw [dangling, if_pos rfl] at hd
    obtain ⟨h0, ha, -, -, hs⟩ := h
    cases fuel with
    | zero => cases hrun
    | succ fuel =>
      obtain ⟨out', reads', hrun', -, rfl⟩ := (write_cons (ha ▸ h0)).mp hrun
      rw [hround] at hrun'
      have hlen : a + (92 :: d :: s).length + 1 = a + 1 + 1 + s.length + 1 := by
        simp only [List.length_cons]
        omega
      rw [hlen]
      exact List.mem_append_right _ (ih hs hd hrun')
  | case4 c d s hc ih =>
    obtain ⟨hround, -⟩ := (writeRound_cons h).2 hc
    rw [dangling, if_neg hc] at hd
    obtain ⟨h0, ha, hs⟩ := h
    cases fuel with
    | zero => cases hrun
    | succ fuel =>
      obtain ⟨out', reads', hrun', -, rfl⟩ := (write_cons (ha ▸ h0)).mp hrun
      rw [hround] at hrun'
      have hlen : a + (c :: d :: s).length + 1 = a + 1 + (d :: s).length + 1 := by
        simp only [List.length_cons]
        omega
      rw [hlen]
      exact List.mem_append_right _ (ih hs hd hrun')

/-- The loop unescapes exactly the strings that do not end in a dangling backslash. -/
theorem write_exact_iff (h : StringAt mem a s) : Exact mem a s ↔ dangling s = false := by
  constructor
  · rintro ⟨fuel, reads, hrun, hin⟩
    by_contra hd
    have hlast := hin _ (reads_after_nul h (Bool.eq_true_of_not_eq_false hd) hrun)
    omega
  · exact exact_of_not_dangling h

def backslashThenA (i : ℕ) : UInt8 := if i = 0 then 92 else if i = 2 then 65 else 0

def letterNewline (i : ℕ) : UInt8 := [97, 92, 110].getD i 0

theorem write_exact_iff_newline : StringAt letterNewline 0 [97, 92, 110] ∧
    unescape [97, 92, 110] = [97, 10] ∧ Exact letterNewline 0 [97, 92, 110] := by
  have h : StringAt letterNewline 0 [97, 92, 110] := ⟨by decide, rfl, by decide, rfl, by decide, rfl, rfl⟩
  exact ⟨h, rfl, (write_exact_iff h).mpr rfl⟩

theorem write_backslashThenA :
    StringAt backslashThenA 0 [92] ∧ unescape [92] = [92] ∧
      writeWithEscapeSequences backslashThenA 3 0 = some ([92, 65], [0, 1, 2, 3]) ∧
        ¬Exact backslashThenA 0 [92] := by
  have h : StringAt backslashThenA 0 [92] := ⟨by decide, rfl, rfl⟩
  refine ⟨h, rfl, by decide, ?_⟩
  rintro ⟨fuel, reads, hrun, hin⟩
  have hlast := hin _ (reads_after_nul h rfl hrun)
  simp at hlast

end Xv6.User.Echo
