import Xv6.User.GrepMatch

/-! The loop of `user/grep.c` over its 1024-byte buffer: which lines it prints, however `read` splits the
input. -/
namespace Xv6.User.Grep

/-- `strchr` of `user/ulib.c`, as an index. -/
def strchr : Str → UInt8 → Option ℕ
  | [], _ => none
  | x :: s, c => if x = 0 then none else if x = c then some 0 else (strchr s c).map (· + 1)

theorem strchr_lt {s : Str} {c : UInt8} {k : ℕ} (h : strchr s c = some k) : k < s.length := by
  induction s generalizing k with
  | nil => cases h
  | cons x s ih =>
    rw [strchr] at h
    split_ifs at h with h0 hc
    · cases h
      simp
    · obtain ⟨j, hj, rfl⟩ := Option.map_eq_some_iff.mp h
      have := ih hj
      simp only [List.length_cons]
      omega

/-- The inner loop on the bytes from `p` to the end of what is in the buffer: what it writes, and the
bytes that it leaves. -/
def grepLines (pattern p : Str) : Str × Str :=
  match _ : strchr p 10 with
  | none => ([], p)
  | some k =>
    let (out, tail) := grepLines pattern (p.drop (k + 1))
    (if matchText pattern (p.take k) then p.take (k + 1) ++ out else out, tail)
termination_by p.length
decreasing_by
  have := strchr_lt ‹_›
  rw [List.length_drop]
  omega

def bufSize : ℕ := 1024

/-- The number of bytes that `read` returns: as many as it chooses, but some if there are any and there
is space for them. -/
def readSize (choice space rest : ℕ) : ℕ := min (max 1 choice) (min space rest)

/-- The outer loop before its `i`th read, with `carried` in the buffer: what it writes. -/
def grepLoop (pattern : Str) (choice : ℕ → ℕ) (i : ℕ) (rest carried : Str) : Str :=
  let n := readSize (choice i) (bufSize - carried.length - 1) rest.length
  if n > 0 then
    let (out, tail) := grepLines pattern (carried ++ rest.take n)
    out ++ grepLoop pattern choice (i + 1) (rest.drop n) tail
  else []
termination_by rest.length
decreasing_by
  have : n ≤ rest.length := by
    unfold n readSize
    omega
  rw [List.length_drop]
  omega

def grep (pattern : Str) (choice : ℕ → ℕ) (input : Str) : Str := grepLoop pattern choice 0 input []

def unlines (lines : List Str) : Str := lines.flatMap fun line => line ++ [10]

def IsLine (line : Str) : Prop := 10 ∉ line ∧ 0 ∉ line

def fits (line : Str) : Bool := line.length + 1 < bufSize

theorem unlines_cons (line : Str) (lines : List Str) :
    unlines (line :: lines) = line ++ 10 :: unlines lines := by
  simp [unlines]

theorem unlines_append (l l' : List Str) : unlines (l ++ l') = unlines l ++ unlines l' := by
  simp [unlines]

theorem strchr_none {s : Str} (h0 : 0 ∉ s) (h : strchr s 10 = none) : 10 ∉ s := by
  induction s with
  | nil => exact List.not_mem_nil
  | cons x s ih =>
    rw [List.mem_cons, not_or] at h0 ⊢
    rw [strchr, if_neg fun hx => h0.1 hx.symm] at h
    split_ifs at h with hc
    exact ⟨fun hx => hc hx.symm, ih h0.2 (Option.map_eq_none_iff.mp h)⟩

theorem strchr_some {s : Str} {k : ℕ} (h : strchr s 10 = some k) :
    10 ∉ s.take k ∧ s.take (k + 1) = s.take k ++ [10] := by
  induction s generalizing k with
  | nil => cases h
  | cons x s ih =>
    rw [strchr] at h
    split_ifs at h with h0 hc
    · cases h
      simp [hc]
    · obtain ⟨j, hj, rfl⟩ := Option.map_eq_some_iff.mp h
      obtain ⟨hnot, htake⟩ := ih hj
      rw [List.take_succ_cons, List.take_succ_cons, htake, List.mem_cons, not_or]
      exact ⟨⟨fun hx => hc hx.symm, hnot⟩, rfl⟩

/-- The inner loop takes the complete lines off and prints those that match. -/
theorem grepLines_spec (pattern p : Str) (h0 : 0 ∉ p) :
    ∃ lines tail, p = unlines lines ++ tail ∧ (∀ line ∈ lines, IsLine line) ∧ IsLine tail ∧
      grepLines pattern p = (unlines (lines.filter (matchText pattern)), tail) := by
  fun_induction grepLines pattern p with
  | case1 p hs => exact ⟨[], p, rfl, fun line h => (by cases h), ⟨strchr_none h0 hs, h0⟩, rfl⟩
  | case2 p k hs out tail hrest ih =>
    obtain ⟨hnot, htake⟩ := strchr_some hs
    obtain ⟨lines, tail', hp, hlines, htail, hout⟩ := ih fun h => h0 (List.mem_of_mem_drop h)
    obtain ⟨rfl, rfl⟩ := Prod.mk.inj (hrest.symm.trans hout)
    refine ⟨p.take k :: lines, tail, ?_, ?_, htail, ?_⟩
    · calc p = p.take (k + 1) ++ p.drop (k + 1) := (List.take_append_drop (k + 1) p).symm
        _ = (p.take k ++ [10]) ++ (unlines lines ++ tail) := by rw [htake, hp]
        _ = unlines (p.take k :: lines) ++ tail := by simp [unlines_cons]
    · exact List.forall_mem_cons.mpr ⟨⟨hnot, fun h => h0 (List.mem_of_mem_take h)⟩, hlines⟩
    · by_cases hm : matchText pattern (p.take k) = true
      · simp [hm, htake, unlines_cons]
      · simp [hm]

theorem append_newline_inj {l l' t t' : Str} (h : 10 ∉ l) (h' : 10 ∉ l')
    (heq : l ++ 10 :: t = l' ++ 10 :: t') : l = l' ∧ t = t' := by
  induction l generalizing l' with
  | nil =>
    cases l' with
    | nil => exact ⟨rfl, (List.cons.inj heq).2⟩
    | cons x l' =>
      obtain ⟨rfl, -⟩ := List.cons.inj heq
      exact absurd List.mem_cons_self h'
  | cons x l ih =>
    cases l' with
    | nil =>
      obtain ⟨rfl, -⟩ := List.cons.inj heq
      exact absurd List.mem_cons_self h
    | cons x' l' =>
      obtain ⟨rfl, htail⟩ := List.cons.inj heq
      rw [List.mem_cons, not_or] at h h'
      obtain ⟨rfl, rfl⟩ := ih h.2 h'.2 htail
      exact ⟨rfl, rfl⟩

theorem unlines_cancel {lines lines' : List Str} {tail : Str} (h : ∀ line ∈ lines, IsLine line)
    (h' : ∀ line ∈ lines', IsLine line) (heq : unlines lines ++ tail = unlines lines') :
    ∃ rest, lines' = lines ++ rest ∧ tail = unlines rest := by
  induction lines generalizing lines' with
  | nil => exact ⟨lines', rfl, heq⟩
  | cons line lines ih =>
    obtain ⟨hline, hlines⟩ := List.forall_mem_cons.mp h
    cases lines' with
    | nil => simp [unlines] at heq
    | cons line' lines' =>
      obtain ⟨hline', hlines'⟩ := List.forall_mem_cons.mp h'
      rw [unlines_cons, unlines_cons, List.append_assoc, List.cons_append] at heq
      obtain ⟨rfl, htail⟩ := append_newline_inj hline.1 hline'.1 heq
      obtain ⟨rest, rfl, hrest⟩ := ih hlines hlines' htail
      exact ⟨rest, rfl, hrest⟩

theorem eq_nil_of_unlines {lines : List Str} {tail : Str} (h : IsLine tail)
    (heq : tail = unlines lines) : lines = [] := by
  cases lines with
  | nil => rfl
  | cons line lines =>
    rw [unlines_cons] at heq
    exact absurd (heq ▸ by simp) h.1

theorem nul_not_mem_unlines {lines : List Str} (h : ∀ line ∈ lines, IsLine line) :
    0 ∉ unlines lines := by
  intro h0
  obtain ⟨line, hl, hline⟩ := List.mem_flatMap.mp h0
  rcases List.mem_append.mp hline with h0 | h0
  · exact (h line hl).2 h0
  · exact absurd (List.mem_singleton.mp h0) (by decide)

theorem length_lt_unlines {lines : List Str} {line : Str} (h : line ∈ lines) :
    line.length < (unlines lines).length := by
  obtain ⟨l, l', rfl⟩ := List.append_of_mem h
  rw [unlines_append, unlines_cons]
  simp only [List.length_append, List.length_cons]
  omega

/-- A buffer that is full without a newline holds the beginning of a line that does not fit. -/
theorem not_fits_of_full {line : Str} {lines : List Str} {carried rest : Str} (hc : IsLine carried)
    (hfull : carried.length + 1 = bufSize) (heq : carried ++ rest = unlines (line :: lines)) :
    fits line = false := by
  rw [fits, decide_eq_false_iff_not]
  intro hlt
  have hget : (carried ++ rest)[line.length]? = some 10 := by
    rw [heq, unlines_cons]
    simp
  rw [List.getElem?_append_left (by omega)] at hget
  exact hc.1 (List.mem_of_getElem? hget)

/-- The buffer holds the beginning of the next line, whatever the reads return. -/
theorem grepLoop_spec (pattern : Str) (choice : ℕ → ℕ) (i : ℕ) (rest carried : Str)
    (lines : List Str) (hlines : ∀ line ∈ lines, IsLine line) (hc : IsLine carried)
    (hfit : carried.length < bufSize) (heq : carried ++ rest = unlines lines) :
    grepLoop pattern choice i rest carried =
      unlines ((lines.takeWhile fits).filter (matchText pattern)) := by
  fun_induction grepLoop pattern choice i rest carried generalizing lines with
  | case1 i rest carried n hn out tail hscan ih =>
    have hsize : (carried ++ rest.take n).length < bufSize := by
      have : n ≤ bufSize - carried.length - 1 := by
        unfold n readSize
        omega
      rw [List.length_append, List.length_take]
      omega
    have hsplit : carried ++ rest = carried ++ rest.take n ++ rest.drop n := by
      rw [List.append_assoc, List.take_append_drop]
    have hnul : 0 ∉ carried ++ rest.take n := by
      intro h0
      apply nul_not_mem_unlines hlines
      rw [← heq, hsplit]
      exact List.mem_append_left _ h0
    obtain ⟨done, tail', hp, hdone, htail, hout⟩ := grepLines_spec pattern _ hnul
    obtain ⟨rfl, rfl⟩ := Prod.mk.inj (hscan.symm.trans hout)
    rw [hsplit, hp, List.append_assoc] at heq
    rw [hp, List.length_append] at hsize
    obtain ⟨later, rfl, hlater⟩ := unlines_cancel hdone hlines heq
    have hfits : ∀ line ∈ done, fits line = true := by
      intro line hl
      have := length_lt_unlines hl
      rw [fits, decide_eq_true_eq]
      omega
    rw [ih later (fun line hl => hlines line (List.mem_append_right _ hl)) htail (by omega) hlater,
      List.takeWhile_append_of_pos hfits, List.filter_append, unlines_append]
  | case2 i rest carried n hn =>
    have hor : carried.length + 1 = bufSize ∨ rest = [] := by
      rw [← List.length_eq_zero_iff]
      unfold n readSize at hn
      omega
    rcases hor with hfull | rfl
    · cases lines with
      | nil =>
        obtain ⟨rfl, -⟩ := List.append_eq_nil_iff.mp heq
        cases hfull
      | cons line lines =>
        rw [List.takeWhile_cons, not_fits_of_full hc hfull heq]
        rfl
    · rw [List.append_nil] at heq
      rw [eq_nil_of_unlines hc heq]
      rfl

/-- What `grep` prints: the matching ones of the lines before the first that does not fit. -/
theorem grep_eq (pattern : Str) (choice : ℕ → ℕ) {lines : List Str}
    (h : ∀ line ∈ lines, IsLine line) :
    grep pattern choice (unlines lines) =
      unlines ((lines.takeWhile fits).filter (matchText pattern)) := by
  apply grepLoop_spec
  · exact h
  · exact ⟨List.not_mem_nil, List.not_mem_nil⟩
  · exact Nat.succ_pos _
  · rfl

theorem unlines_eq_nil {lines : List Str} : unlines lines = [] ↔ lines = [] := by
  constructor
  · intro h
    exact eq_nil_of_unlines ⟨List.not_mem_nil, List.not_mem_nil⟩ h.symm
  · rintro rfl
    rfl

/-- `grep` prints exactly the matching lines if and only if no line from the first that does not fit
on matches. -/
theorem grep_exact_iff (pattern : Str) (choice : ℕ → ℕ) (lines : List Str)
    (h : ∀ line ∈ lines, IsLine line) :
    grep pattern choice (unlines lines) = unlines (lines.filter (matchText pattern)) ↔
      ∀ line ∈ lines.dropWhile fits, matchText pattern line = false := by
  have hsplit : lines.filter (matchText pattern) =
      (lines.takeWhile fits).filter (matchText pattern) ++
        (lines.dropWhile fits).filter (matchText pattern) := by
    rw [← List.filter_append, List.takeWhile_append_dropWhile]
  rw [grep_eq pattern choice h, hsplit, unlines_append, List.self_eq_append_right, unlines_eq_nil,
    List.filter_eq_nil_iff]
  simp only [Bool.not_eq_true]

theorem grep_exact_iff_short :
    grep [97] (fun _ => 1) (unlines [[98], [97, 98]]) = unlines ([[98], [97, 98]].filter (matchText [97])) := by
  have h : ∀ line ∈ ([[98], [97, 98]] : List Str), IsLine line := by
    unfold IsLine
    decide
  apply (grep_exact_iff [97] (fun _ => 1) _ h).mpr
  have hnone : ([[98], [97, 98]] : List Str).dropWhile fits = [] := by decide
  rw [hnone]
  exact fun line hl => (by cases hl)

/-- A line of 1023 letters fills the buffer: nothing is printed. -/
def longLine : Str := List.replicate 1023 97

theorem grep_longLine :
    IsLine longLine ∧ matchText [97] longLine = true ∧
      grep [97] (fun _ => 1) (unlines [longLine]) = [] := by
  have h : IsLine longLine :=
    ⟨fun h => absurd (List.mem_replicate.mp h).2 (by decide),
      fun h => absurd (List.mem_replicate.mp h).2 (by decide)⟩
  refine ⟨h, ?_, ?_⟩
  · have hhere : matchhere [97] longLine = true := by
      rw [matchhere_iff]
      exact (begins_one 97 [] false longLine).mpr ⟨97, List.replicate 1022 97, rfl, Or.inr rfl,
        begins_nil _⟩
    rw [matchText, if_neg (by decide), matchAnywhere_iff]
    exact ⟨[], longLine, rfl, hhere⟩
  · rw [grep_eq [97] (fun _ => 1) (by simpa using h), List.takeWhile_cons]
    have hfits : fits longLine = false := by
      rw [fits, longLine, List.length_replicate]
      decide
    rw [hfits]
    rfl

end Xv6.User.Grep
