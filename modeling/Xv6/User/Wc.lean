import Xv6.Str

/-! `wc` and the file loop of `main` in `user/wc.c`: counting does not depend on how `read` splits the
input. -/
namespace Xv6.User.Wc

/-- The counters of a file. The totals have the same fields. -/
structure Counts where
  l : BitVec 32
  w : BitVec 32
  c : BitVec 32
  m : BitVec 32

def Counts.zero : Counts := ⟨0, 0, 0, 0⟩

def Counts.add (s t : Counts) : Counts := ⟨s.l + t.l, s.w + t.w, s.c + t.c, s.m + t.m⟩

def continuation (cur : UInt8) : Bool := cur &&& 0xc0 == 0x80

def whitespace (cur : UInt8) : Bool := (9 ≤ cur && cur ≤ 13) || cur == 32

/-- The body of the inner loop, with the flag `inword`. -/
def wcByte (s : Counts × Bool) (cur : UInt8) : Counts × Bool :=
  if continuation cur then ({ s.1 with m := s.1.m + 1 }, s.2)
  else if whitespace cur then (if cur = 10 then { s.1 with l := s.1.l + 1 } else s.1, false)
  else if s.2 = false then ({ s.1 with w := s.1.w + 1 }, true)
  else s

/-- The body of the outer loop, for the bytes that one `read` has left in `buf`. -/
def wcRead (s : Counts × Bool) (buf : Str) : Counts × Bool :=
  buf.foldl wcByte ({ s.1 with c := s.1.c + BitVec.ofNat 32 buf.length }, s.2)

/-- The results of the reads from one descriptor, up to the first that is not positive. -/
structure Reads where
  bufs : List Str
  error : Bool

inductive Line where
  | counts (numbers : List ℤ) (name : Str)
  | readError
  | cannotOpen (name : Str)
  deriving DecidableEq

def numberOfBytes : BitVec 32 := 0b0001
def numberOfWords : BitVec 32 := 0b0010
def numberOfChars : BitVec 32 := 0b0100
def numberOfLines : BitVec 32 := 0b1000

def selected (format : BitVec 32) (l w m c : ℤ) : List ℤ :=
  (if format &&& numberOfLines ≠ 0 then [l] else []) ++
    (if format &&& numberOfWords ≠ 0 then [w] else []) ++
      (if format &&& numberOfChars ≠ 0 then [m] else []) ++
        if format &&& numberOfBytes ≠ 0 then [c] else []

def writeOutput (name : Str) (format : BitVec 32) (s : Counts) : Line :=
  .counts (selected format s.l.toInt s.w.toInt (s.c - s.m).toInt s.c.toInt) name

def wc (r : Reads) (name : Str) (format : BitVec 32) (total : Counts) : Line × Counts :=
  let s := (r.bufs.foldl wcRead (.zero, false)).1
  if r.error then (.readError, total) else (writeOutput name format s, total.add s)

/-- The loop of `main` over its items: each is a name and, if it could be opened, what `read` gives. -/
def mainLoop (format : BitVec 32) : List (Str × Option Reads) → Counts → List Line × Counts
  | [], total => ([], total)
  | (name, none) :: items, total =>
    let (lines, total) := mainLoop format items total
    (.cannotOpen name :: lines, total)
  | (name, some r) :: items, total =>
    let (line, total) := wc r name format total
    let (lines, total) := mainLoop format items total
    (line :: lines, total)

def main (format : BitVec 32) (items : List (Str × Option Reads)) : List Line :=
  let (lines, total) := mainLoop format items .zero
  lines ++ if items.length > 1 then [writeOutput (lit "total") format total] else []

section Runs

variable {α : Type*} (p : α → Bool)

/-- The number of maximal runs of elements without `p`. -/
def runs (l : List α) : ℕ := ((l.splitOnP p).filter fun r => !r.isEmpty).length

/-- The number of elements without `p` that no such element precedes. -/
def starts : Bool → List α → ℕ
  | _, [] => 0
  | inword, x :: l =>
    if p x then starts false l else (if inword then 0 else 1) + starts true l

theorem runs_eq_starts (l : List α) :
    runs p l = starts p false l ∧
      ((l.splitOnP p).tail.filter fun r => !r.isEmpty).length = starts p true l := by
  induction l with
  | nil => simp [runs, starts]
  | cons x l ih =>
    obtain ⟨ihf, iht⟩ := ih
    unfold runs at *
    rw [List.splitOnP_cons_eq_if_modifyHead]
    by_cases hx : p x
    · simpa [hx, starts] using ihf
    · obtain ⟨head, tail, hs⟩ := List.exists_cons_of_ne_nil (List.splitOnP_ne_nil p l)
      rw [hs] at iht ⊢
      simp only [List.tail_cons] at iht
      simp [hx, starts, iht, Nat.add_comm]

end Runs

/-- The words of a byte sequence: runs of bytes that are not whitespace, continuation bytes left
out. -/
def words (bytes : Str) : ℕ := runs whitespace (bytes.filter fun b => !continuation b)

def lines (bytes : Str) : ℕ := bytes.count 10

def chars (bytes : Str) : ℕ := bytes.countP fun b => !continuation b

def countsOf (bytes : Str) : Counts :=
  ⟨BitVec.ofNat 32 (lines bytes), BitVec.ofNat 32 (words bytes), BitVec.ofNat 32 bytes.length,
    BitVec.ofNat 32 (bytes.countP continuation)⟩

/-- The counters that a byte sequence adds to those of a state that is in a word or not. -/
def added (inword : Bool) (bytes : Str) : Counts :=
  ⟨BitVec.ofNat 32 (lines bytes),
    BitVec.ofNat 32 (starts whitespace inword (bytes.filter fun b => !continuation b)), 0,
    BitVec.ofNat 32 (bytes.countP continuation)⟩

theorem Counts.add_assoc (s t u : Counts) : (s.add t).add u = s.add (t.add u) := by
  simp only [Counts.add, BitVec.add_assoc]

def addedByte (inword : Bool) (b : UInt8) : Counts :=
  ⟨if b = 10 then 1 else 0, if continuation b || whitespace b || inword then 0 else 1, 0,
    if continuation b then 1 else 0⟩

def inwordAfter (inword : Bool) (b : UInt8) : Bool := if continuation b then inword else !whitespace b

theorem newline_class : continuation 10 = false ∧ whitespace 10 = true := by decide

theorem wcByte_eq (s : Counts × Bool) (b : UInt8) :
    wcByte s b = (s.1.add (addedByte s.2 b), inwordAfter s.2 b) := by
  obtain ⟨s, inword⟩ := s
  have h10 : continuation b = true ∨ whitespace b = false → b ≠ 10 := by
    rintro h rfl
    simp [newline_class] at h
  unfold wcByte addedByte inwordAfter
  by_cases hc : continuation b
  · simp [hc, h10, Counts.add]
  · by_cases hw : whitespace b
    · by_cases h : b = 10
      · simp [h, newline_class, Counts.add]
      · simp [hc, hw, h, Counts.add]
    · have hw' : whitespace b = false := by simpa using hw
      cases inword with
      | false => simp [hc, hw', h10, Counts.add]
      | true => simp [hc, hw', h10, Counts.add]

theorem added_cons (inword : Bool) (b : UInt8) (bytes : Str) :
    added inword (b :: bytes) = (addedByte inword b).add (added (inwordAfter inword b) bytes) := by
  have hl : BitVec.ofNat 32 (lines (b :: bytes)) =
      (if b = 10 then 1 else 0) + BitVec.ofNat 32 (lines bytes) := by
    by_cases h : b = 10
    · simp [lines, h, BitVec.ofNat_add, BitVec.add_comm]
    · simp [lines, h]
  unfold added addedByte inwordAfter Counts.add
  rw [hl]
  by_cases hc : continuation b
  · simp [hc, BitVec.ofNat_add, BitVec.add_comm]
  · by_cases hw : whitespace b
    · simp [hc, hw, starts]
    · cases inword with
      | false => simp [hc, hw, starts, BitVec.ofNat_add]
      | true => simp [hc, hw, starts]

theorem foldl_wcByte (bytes : Str) (s : Counts × Bool) :
    bytes.foldl wcByte s = (s.1.add (added s.2 bytes), bytes.foldl inwordAfter s.2) := by
  induction bytes generalizing s with
  | nil => simp [Counts.add, added, lines, starts]
  | cons b bytes ih =>
    rw [List.foldl_cons, ih, wcByte_eq, added_cons, Counts.add_assoc, List.foldl_cons]

theorem added_append (inword : Bool) (bytes bytes' : Str) :
    added inword (bytes ++ bytes') =
      (added inword bytes).add (added (bytes.foldl inwordAfter inword) bytes') := by
  induction bytes generalizing inword with
  | nil => simp [Counts.add, added, lines, starts]
  | cons b bytes ih =>
    rw [List.cons_append, added_cons, ih, added_cons, Counts.add_assoc, List.foldl_cons]

/-- What the bytes of a `read` add, their number included. -/
def counted (inword : Bool) (bytes : Str) : Counts :=
  { added inword bytes with c := BitVec.ofNat 32 bytes.length }

theorem wcRead_eq (s : Counts × Bool) (buf : Str) :
    wcRead s buf = (s.1.add (counted s.2 buf), buf.foldl inwordAfter s.2) := by
  rw [wcRead, foldl_wcByte]
  simp [Counts.add, added, counted]

theorem counted_append (inword : Bool) (bytes bytes' : Str) :
    counted inword (bytes ++ bytes') =
      (counted inword bytes).add (counted (bytes.foldl inwordAfter inword) bytes') := by
  rw [counted, added_append]
  simp [Counts.add, counted, BitVec.ofNat_add]

theorem foldl_wcRead (bufs : List Str) (s : Counts × Bool) :
    bufs.foldl wcRead s = (s.1.add (counted s.2 bufs.flatten), bufs.flatten.foldl inwordAfter s.2) := by
  induction bufs generalizing s with
  | nil => simp [Counts.add, counted, added, lines, starts]
  | cons buf bufs ih =>
    rw [List.foldl_cons, ih, wcRead_eq, List.flatten_cons, counted_append, Counts.add_assoc,
      List.foldl_append]

theorem foldl_wcRead_zero (bufs : List Str) :
    (bufs.foldl wcRead (.zero, false)).1 = countsOf bufs.flatten := by
  rw [foldl_wcRead]
  simp [Counts.add, Counts.zero, added, counted, countsOf, words, (runs_eq_starts _ _).1]

def whitespaceChar (c : Char) : Bool := (9 ≤ c.val && c.val ≤ 13) || c.val == 32

theorem continuation_ofNat :
    ∀ n < 256, continuation (UInt8.ofNat n) = decide (128 ≤ n ∧ n < 192) := by
  decide +kernel

theorem whitespace_ofNat :
    ∀ n < 256, whitespace (UInt8.ofNat n) = decide (9 ≤ n ∧ n ≤ 13 ∨ n = 32) := by
  decide +kernel

theorem whitespaceChar_eq (c : Char) :
    whitespaceChar c = decide (9 ≤ c.val.toNat ∧ c.val.toNat ≤ 13 ∨ c.val.toNat = 32) := by
  rw [whitespaceChar, Bool.eq_iff_iff]
  simp only [Bool.or_eq_true, Bool.and_eq_true, decide_eq_true_eq, beq_iff_eq,
    UInt32.le_iff_toNat_le, ← UInt32.toNat_inj]
  rfl

theorem lead_class {c : Char} {n : ℕ} (hc : 127 < c.val.toNat) (h192 : 192 ≤ n) (hn : n < 256) :
    continuation (UInt8.ofNat n) = false ∧ whitespace (UInt8.ofNat n) = whitespaceChar c := by
  rw [continuation_ofNat n hn, whitespace_ofNat n hn, whitespaceChar_eq]
  constructor
  · rw [decide_eq_false_iff_not]
    omega
  · rw [decide_eq_decide]
    omega

theorem continuation_tail (n : ℕ) : continuation (UInt8.ofNat (n % 64 + 128)) = true := by
  rw [continuation_ofNat _ (by omega), decide_eq_true_eq]
  omega

/-- The encoding of a character: a first byte, which is whitespace if the character is, and
continuation bytes. -/
theorem utf8EncodeChar_class (c : Char) : ∃ b bs, String.utf8EncodeChar c = b :: bs ∧
    (continuation b = false ∧ whitespace b = whitespaceChar c) ∧
      ∀ x ∈ bs, continuation x = true := by
  rw [String.utf8EncodeChar.eq_def]
  simp only
  split_ifs with h1 h2 h3
  · refine ⟨_, _, rfl, ?_, fun x hx => (by cases hx)⟩
    rw [continuation_ofNat _ (by omega), whitespace_ofNat _ (by omega), whitespaceChar_eq]
    refine ⟨?_, rfl⟩
    rw [decide_eq_false_iff_not]
    omega
  · refine ⟨_, _, rfl, lead_class (by omega) (by omega) (by omega), ?_⟩
    simp only [List.forall_mem_cons, continuation_tail, List.not_mem_nil, false_imp_iff, implies_true,
      and_self]
  · refine ⟨_, _, rfl, lead_class (by omega) (by omega) (by omega), ?_⟩
    simp only [List.forall_mem_cons, continuation_tail, List.not_mem_nil, false_imp_iff, implies_true,
      and_self]
  · refine ⟨_, _, rfl, lead_class (by omega) (by omega) (by omega), ?_⟩
    simp only [List.forall_mem_cons, continuation_tail, List.not_mem_nil, false_imp_iff, implies_true,
      and_self]

theorem starts_utf8 (inword : Bool) (cs : List Char) :
    starts whitespace inword ((cs.flatMap String.utf8EncodeChar).filter fun b => !continuation b) =
      starts whitespaceChar inword cs := by
  induction cs generalizing inword with
  | nil => rfl
  | cons c cs ih =>
    obtain ⟨b, bs, hb, ⟨hcont, hwhite⟩, hbs⟩ := utf8EncodeChar_class c
    have hnil : bs.filter (fun b => !continuation b) = [] := by
      rw [List.filter_eq_nil_iff]
      intro x hx
      simp [hbs x hx]
    rw [List.flatMap_cons, List.filter_append, hb, List.filter_cons, hcont, hnil]
    simp [starts, hwhite, ih]

theorem words_utf8 (cs : List Char) :
    words (cs.flatMap String.utf8EncodeChar) = runs whitespaceChar cs := by
  rw [words, (runs_eq_starts _ _).1, (runs_eq_starts _ _).1, starts_utf8]

def itemLine (format : BitVec 32) : Str × Option Reads → Line
  | (name, none) => .cannotOpen name
  | (name, some r) =>
    if r.error then .readError
    else .counts (selected format (lines r.bufs.flatten) (words r.bufs.flatten)
      (chars r.bufs.flatten) r.bufs.flatten.length) name

def itemBytes (items : List (Str × Option Reads)) : List Str :=
  items.filterMap fun item => item.2.bind fun r => if r.error then none else some r.bufs.flatten

def totalLine (format : BitVec 32) (files : List Str) : Line :=
  .counts (selected format (files.map lines).sum (files.map words).sum (files.map chars).sum
    (files.map List.length).sum) (lit "total")

theorem starts_le (inword : Bool) (l : Str) : starts whitespace inword l ≤ l.length := by
  induction l generalizing inword with
  | nil => exact le_rfl
  | cons x l ih =>
    have h₁ := ih false
    have h₂ := ih true
    rw [starts, List.length_cons]
    split_ifs <;> omega

theorem words_le (bytes : Str) : words bytes ≤ bytes.length := by
  rw [words, (runs_eq_starts _ _).1]
  exact (starts_le _ _).trans (List.length_filter_le _ _)

theorem toInt_ofNat {n : ℕ} (h : n < 2 ^ 31) : (BitVec.ofNat 32 n).toInt = n := by
  rw [BitVec.toInt_ofNat']
  exact Int.bmod_eq_of_le (by omega) (by omega)

theorem chars_add (bytes : Str) : chars bytes + bytes.countP continuation = bytes.length := by
  rw [List.length_eq_countP_add_countP continuation, Nat.add_comm, chars]
  simp only [Bool.not_eq_true, Bool.decide_eq_false]

theorem writeOutput_ofNat {l w k c m : ℕ} (name : Str) (format : BitVec 32) (hl : l ≤ c) (hw : w ≤ c)
    (hk : k + m = c) (hc : c < 2 ^ 31) :
    writeOutput name format ⟨BitVec.ofNat 32 l, BitVec.ofNat 32 w, BitVec.ofNat 32 c,
      BitVec.ofNat 32 m⟩ = .counts (selected format l w k c) name := by
  have hsub : BitVec.ofNat 32 c - BitVec.ofNat 32 m = BitVec.ofNat 32 k := by
    rw [← hk, BitVec.ofNat_add, BitVec.add_sub_cancel]
  rw [writeOutput]
  simp only [hsub]
  rw [toInt_ofNat (by omega), toInt_ofNat (by omega), toInt_ofNat (by omega), toInt_ofNat hc]

def totalsOf (files : List Str) : Counts :=
  ⟨BitVec.ofNat 32 (files.map lines).sum, BitVec.ofNat 32 (files.map words).sum,
    BitVec.ofNat 32 (files.map List.length).sum,
    BitVec.ofNat 32 (files.map fun bytes => bytes.countP continuation).sum⟩

theorem totalsOf_cons (bytes : Str) (files : List Str) :
    totalsOf (bytes :: files) = (countsOf bytes).add (totalsOf files) := by
  simp [totalsOf, countsOf, Counts.add, BitVec.ofNat_add]

theorem mainLoop_eq (format : BitVec 32) (items : List (Str × Option Reads)) (total : Counts)
    (h : ∀ bytes ∈ itemBytes items, bytes.length < 2 ^ 31) :
    mainLoop format items total =
      (items.map (itemLine format), total.add (totalsOf (itemBytes items))) := by
  induction items generalizing total with
  | nil => simp [mainLoop, itemBytes, totalsOf, Counts.add]
  | cons item items ih =>
    obtain ⟨name, r⟩ := item
    cases r with
    | none =>
      rw [mainLoop, ih total h]
      rfl
    | some r =>
      by_cases he : r.error = true
      · have hb : itemBytes ((name, some r) :: items) = itemBytes items := by simp [itemBytes, he]
        rw [hb] at h ⊢
        rw [mainLoop, wc, if_pos he, List.map_cons, itemLine, if_pos he]
        simp only [ih total h]
      · have hb : itemBytes ((name, some r) :: items) = r.bufs.flatten :: itemBytes items := by
          simp [itemBytes, he]
        rw [hb] at h ⊢
        obtain ⟨hfile, hrest⟩ := List.forall_mem_cons.mp h
        have hline : writeOutput name format (countsOf r.bufs.flatten) =
            itemLine format (name, some r) := by
          rw [itemLine, if_neg he]
          exact writeOutput_ofNat name format List.count_le_length (words_le _) (chars_add _) hfile
        rw [mainLoop, wc, if_neg he, List.map_cons, foldl_wcRead_zero, hline, totalsOf_cons,
          ← Counts.add_assoc]
        simp only [ih _ hrest]

/-- `wc` prints for each file the counts of its bytes and in the end their sums, for every split of the
files into reads. The words are those of the characters if the bytes are UTF-8. -/
theorem wc_counts (format : BitVec 32) (items : List (Str × Option Reads))
    (hsum : ((itemBytes items).map List.length).sum < 2 ^ 31) :
    (main format items = items.map (itemLine format) ++
      if items.length > 1 then [totalLine format (itemBytes items)] else []) ∧
    ∀ cs : List Char, words (cs.flatMap String.utf8EncodeChar) = runs whitespaceChar cs := by
  refine ⟨?_, words_utf8⟩
  have hlen : ∀ bytes ∈ itemBytes items, bytes.length < 2 ^ 31 := by
    intro bytes hb
    have := List.single_le_sum (by simp) _ (List.mem_map_of_mem (f := List.length) hb)
    omega
  have htotal : writeOutput (lit "total") format (Counts.zero.add (totalsOf (itemBytes items))) =
      totalLine format (itemBytes items) := by
    have hzero : Counts.zero.add (totalsOf (itemBytes items)) = totalsOf (itemBytes items) := by
      simp [Counts.zero, Counts.add]
    have hk : ((itemBytes items).map chars).sum +
        ((itemBytes items).map fun bytes => bytes.countP continuation).sum =
          ((itemBytes items).map List.length).sum := by
      rw [← List.sum_map_add]
      simp only [chars_add]
    rw [hzero]
    exact writeOutput_ofNat _ format (List.sum_le_sum fun _ _ => List.count_le_length)
      (List.sum_le_sum fun _ _ => words_le _) hk hsum
  rw [main, mainLoop_eq format items .zero hlen]
  simp only [htotal]

/-- Two files, the first of them read in three pieces that split a word and a character. -/
theorem wc_counts_two :
    main (numberOfLines ||| numberOfWords ||| numberOfChars ||| numberOfBytes)
        [([97], some ⟨[[104, 195], [169, 104], [10, 32, 120]], false⟩), ([98], some ⟨[[121, 10]], false⟩)] =
      [.counts [1, 2, 6, 7] [97], .counts [1, 1, 2, 2] [98], .counts [2, 3, 8, 9] (lit "total")] := by
  have h := (wc_counts (numberOfLines ||| numberOfWords ||| numberOfChars ||| numberOfBytes)
    [([97], some ⟨[[104, 195], [169, 104], [10, 32, 120]], false⟩), ([98], some ⟨[[121, 10]], false⟩)]
    (by decide)).1
  rw [h]
  decide

end Xv6.User.Wc
