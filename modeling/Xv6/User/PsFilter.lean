import Xv6.User.Ps

/-! Lists of process ids as they are written on a command line: `parsePIDs` reads back what was written,
and `ps -p` selects these processes. -/
namespace Xv6.User

open Proc

/-- A decimal numeral that the digit buffer of `parsePIDs` has room for. -/
structure Numeral where
  digits : List (Fin 10)
  ne_nil : digits ≠ []
  length_le : digits.length ≤ 9

namespace Numeral

def value (d : Numeral) : ℕ := Nat.ofDigits 10 (d.digits.reverse.map Fin.val)

def digitChar (d : Fin 10) : UInt8 := UInt8.ofNat (48 + d.val)

def text (d : Numeral) : Str := d.digits.map digitChar

end Numeral

open Numeral (digitChar)

/-- Numerals with commas between them, and possibly one after the last. -/
def render (list : List Numeral) (trailing : Bool) : Str :=
  [44].intercalate (list.map Numeral.text) ++ if trailing then [44] else []

theorem digitChar_toNat (d : Fin 10) : (digitChar d).toNat = 48 + d.val := by
  revert d
  decide

theorem digitChar_digit (d : Fin 10) : 48 ≤ digitChar d ∧ digitChar d ≤ 57 := by
  revert d
  decide

theorem digitChar_ne_comma (d : Fin 10) : digitChar d ≠ 44 := by
  revert d
  decide

theorem atoiFrom_digits (digits : List (Fin 10)) (n : ℕ) :
    atoiFrom n (digits.map digitChar) =
      (n * 10 ^ digits.length + Nat.ofDigits 10 (digits.reverse.map Fin.val) : ℕ) := by
  induction digits generalizing n with
  | nil => simp [atoiFrom]
  | cons d digits ih =>
    have hstep : (n : ℤ) * 10 + ((digitChar d).toNat : ℤ) - 48 = ((n * 10 + d.val : ℕ) : ℤ) := by
      rw [digitChar_toNat]
      omega
    rw [List.map_cons, atoiFrom, if_pos (digitChar_digit d), hstep, ih]
    congr 1
    rw [List.reverse_cons, List.map_append, Nat.ofDigits_append, List.length_map,
      List.length_reverse, List.length_cons, Nat.pow_succ]
    simp only [List.map_cons, List.map_nil, Nat.ofDigits_singleton]
    ring

theorem atoi_text (d : Numeral) : atoi d.text = d.value := by
  have h := atoiFrom_digits d.digits 0
  rw [Nat.zero_mul, Nat.zero_add] at h
  exact h

theorem comma_not_mem_text (d : Numeral) : 44 ∉ d.text := by
  intro h
  obtain ⟨x, -, hx⟩ := List.mem_map.mp h
  exact digitChar_ne_comma x hx

theorem fieldsFrom_append {field t : Str} (h : 44 ∉ t) (s : Str) :
    fieldsFrom field (t ++ s) = fieldsFrom (field ++ t) s := by
  induction t generalizing field with
  | nil => simp
  | cons c t ih =>
    rw [List.mem_cons, not_or] at h
    rw [List.cons_append, fieldsFrom, if_neg fun hc => h.1 hc.symm, ih h.2, List.append_assoc]
    rfl

theorem text_ne_nil (d : Numeral) : d.text ≠ [] := by
  intro h
  exact d.ne_nil (List.map_eq_nil_iff.mp h)

theorem fields_text_comma (d : Numeral) (s : Str) :
    fields (d.text ++ 44 :: s) = d.text :: fields s := by
  rw [fields, fieldsFrom_append (comma_not_mem_text d), fieldsFrom, if_pos rfl]
  rfl

theorem fields_text (d : Numeral) : fields d.text = [d.text] := by
  have h : fieldsFrom [] (d.text ++ []) = fieldsFrom ([] ++ d.text) [] :=
    fieldsFrom_append (comma_not_mem_text d) []
  rw [List.append_nil] at h
  rw [fields, h, List.nil_append, fieldsFrom, if_neg (text_ne_nil d)]

theorem render_cons_cons (d d' : Numeral) (list : List Numeral) (trailing : Bool) :
    render (d :: d' :: list) trailing = d.text ++ 44 :: render (d' :: list) trailing := by
  simp [render, List.intercalate]

theorem fields_render {list : List Numeral} (h : list ≠ []) (trailing : Bool) :
    fields (render list trailing) = list.map Numeral.text := by
  induction list with
  | nil => exact absurd rfl h
  | cons d list ih =>
    cases list with
    | nil =>
      cases trailing with
      | false => simpa [render] using fields_text d
      | true => simpa [render, fields, fieldsFrom] using fields_text_comma d []
    | cons d' list =>
      rw [render_cons_cons, fields_text_comma, ih (by simp)]
      rfl

theorem numbers_render {list : List Numeral} (h : list ≠ []) (trailing : Bool) :
    numbers (render list trailing) = list.map fun d => (d.value : ℤ) := by
  rw [numbers, fields_render h, List.map_map]
  apply List.map_congr_left
  intro d _
  exact atoi_text d

theorem render_wellFormed {list : List Numeral} (h : list ≠ []) (hn : list.length < nproc)
    (trailing : Bool) : WellFormed (render list trailing) := by
  rw [WellFormed, fields_render h, List.length_map]
  refine ⟨?_, hn⟩
  intro f hf
  obtain ⟨d, -, rfl⟩ := List.mem_map.mp hf
  refine ⟨text_ne_nil d, ?_⟩
  rw [Numeral.text, List.length_map]
  exact d.length_le

theorem isValidPidList_append (s t : Str) :
    isValidPidList (s ++ t) = (isValidPidList s && isValidPidList t) :=
  List.all_append

theorem isValidPidList_text (d : Numeral) : isValidPidList d.text = true := by
  rw [isValidPidList, List.all_eq_true]
  intro c hc
  obtain ⟨x, -, rfl⟩ := List.mem_map.mp hc
  simp [digitChar_digit x]

theorem isValidPidList_render (list : List Numeral) (trailing : Bool) :
    isValidPidList (render list trailing) = true := by
  induction list with
  | nil =>
    cases trailing with
    | false => rfl
    | true => rfl
  | cons d list ih =>
    cases list with
    | nil =>
      have hone : render [d] trailing = d.text ++ if trailing then [44] else [] := by simp [render]
      rw [hone, isValidPidList_append, isValidPidList_text]
      cases trailing with
      | false => rfl
      | true => rfl
    | cons d' list =>
      rw [render_cons_cons, ← List.singleton_append, isValidPidList_append, isValidPidList_append,
        isValidPidList_text, ih]
      rfl

inductive Flag where
  | r
  | l
  deriving DecidableEq

def Flag.text : Flag → Str
  | .r => lit "r"
  | .l => lit "-l"

def Flag.opt : Flag → Opt
  | .r => .running
  | .l => .long

theorem options_flag (f : Flag) (rest : List Str) :
    options (f.text :: rest) = (options rest).map (f.opt :: ·) := by
  cases f with
  | r =>
    rw [options.eq_def]
    simp only
    rw [if_pos (by decide)]
    rfl
  | l =>
    rw [options.eq_def]
    simp only
    rw [if_neg (by decide), if_pos (by decide)]
    rfl

theorem options_flags (flags : List Flag) (rest : List Str) :
    options (flags.map Flag.text ++ rest) =
      (options rest).map (flags.map Flag.opt ++ ·) := by
  induction flags with
  | nil => simp
  | cons f flags ih =>
    rw [List.map_cons, List.cons_append, options_flag, ih, Option.map_map]
    rfl

theorem options_pids {list : Str} (h : isValidPidList list = true) (rest : List Str) :
    options (lit "-p" :: list :: rest) = (options rest).map (.pids list :: ·) := by
  rw [options.eq_def]
  simp only
  rw [if_neg (by decide), if_neg (by decide), if_pos (by decide), if_pos h]

def commandLine (name : Str) (before : List Flag) (list : Str) (after : List Flag) : List Str :=
  name :: (before.map Flag.text ++ lit "-p" :: list :: after.map Flag.text)

def commandOpts (before : List Flag) (list : Str) (after : List Flag) : List Opt :=
  before.map Flag.opt ++ .pids list :: after.map Flag.opt

theorem options_commandLine (name : Str) (before after : List Flag) {list : Str}
    (h : isValidPidList list = true) :
    options (commandLine name before list after).tail = some (commandOpts before list after) := by
  have hafter := options_flags after []
  rw [List.append_nil, options] at hafter
  rw [commandLine, List.tail_cons, options_flags, options_pids h, hafter]
  simp [commandOpts]

theorem lastList_commandOpts (before after : List Flag) (list : Str) :
    lastList (commandOpts before list after) = some list := by
  have hflags : ∀ (flags : List Flag) (opts : List Opt),
      lastList (flags.map Flag.opt ++ opts) = lastList opts := by
    intro flags opts
    induction flags with
    | nil => rfl
    | cons f flags ih =>
      cases f with
      | r => exact ih
      | l => exact ih
  have hafter := hflags after []
  rw [List.append_nil] at hafter
  rw [commandOpts, hflags, lastList, hafter]
  rfl

/-- What was asked for: the header, and a line for each process in use that is listed, and that runs if
`r` was given. -/
def filteredLines (flags : List Flag) (list : List Numeral) (table : List ProcEntry) : List PsLine :=
  .header (decide (.l ∈ flags)) :: (table.filter fun p =>
      p.state ≠ .unused ∧ (.r ∈ flags → p.state = .running) ∧ p.pid ∈ list.map fun d => (d.value : ℤ)).map
    fun p =>
      if .l ∈ flags then .long p.pid (p.ppid.getD 0) p.kstack p.state p.sz p.name
      else .short p.pid p.name

theorem mem_commandOpts (f : Flag) (before after : List Flag) (list : Str) :
    f.opt ∈ commandOpts before list after ↔ f ∈ before ++ after := by
  have hinj : Function.Injective Flag.opt := by
    intro f g h
    cases f <;> cases g <;> first | rfl | cases h
  have hne : f.opt ≠ .pids list := by
    cases f <;> exact fun h => (by cases h)
  rw [commandOpts, List.mem_append, List.mem_cons, or_iff_right hne,
    List.mem_map_of_injective hinj, List.mem_map_of_injective hinj, List.mem_append]

theorem requested_commandOpts {list : List Numeral} (h : list ≠ []) (trailing : Bool)
    (before after : List Flag) (table : List ProcEntry) :
    requested (commandOpts before (render list trailing) after) table =
      filteredLines (before ++ after) list table := by
  have hrunning := mem_commandOpts .r before after (render list trailing)
  have hlong := mem_commandOpts .l before after (render list trailing)
  simp only [Flag.opt] at hrunning hlong
  rw [requested, filteredLines, lastList_commandOpts]
  simp only [hrunning, hlong, Option.mem_def, Option.some.injEq, forall_eq', numbers_render h]

theorem parsePIDs_render {list : List Numeral} (h : list ≠ []) (hn : list.length < nproc)
    (trailing : Bool) (pids : ℕ → ℤ) :
    (parsePIDs (render list trailing) pids).1 = true ∧
      ∀ i v, (list.map (fun d => (d.value : ℤ)) ++ [-1])[i]? = some v →
        (parsePIDs (render list trailing) pids).2 i = v := by
  rw [parsePIDs_of_wellFormed (render_wellFormed h hn trailing).1, numbers_render h]
  refine ⟨rfl, fun i v hv => ?_⟩
  have := stored_get _ 0 i pids v hv
  rwa [Nat.zero_add] at this

theorem parsePIDs_malformed {s : Str} (h : ∃ f ∈ fields s, f = [] ∨ 10 ≤ f.length)
    (pids : ℕ → ℤ) : (parsePIDs s pids).1 = false := by
  have hspec := parsePIDsFrom_spec s.length s 0 pids le_rfl
  have hbad : ¬∀ f ∈ fields s, f ≠ [] ∧ f.length ≤ 9 := by
    intro hall
    obtain ⟨f, hf, hbad⟩ := h
    obtain ⟨hne, hlen⟩ := hall f hf
    rcases hbad with hnil | h10
    · exact hne hnil
    · omega
  rw [if_neg hbad] at hspec
  exact hspec

/-- `parsePIDs` reads back a rendered list and rejects malformed ones, and `ps -p` prints the listed
processes. -/
theorem ps_filter_exact (table : List ProcEntry) (pids : ℕ → ℤ) (name : Str) (list : List Numeral)
    (trailing : Bool) (before after : List Flag) (h : list ≠ []) (hn : list.length < nproc)
    (hargs : (commandLine name before (render list trailing) after).length < maxArg) :
    ((parsePIDs (render list trailing) pids).1 = true ∧
      ∀ i v, (list.map (fun d => (d.value : ℤ)) ++ [-1])[i]? = some v →
        (parsePIDs (render list trailing) pids).2 i = v) ∧
    ps table pids (commandLine name before (render list trailing) after).length
        (commandLine name before (render list trailing) after) =
      .ok (filteredLines (before ++ after) list table) ∧
    ∀ s : Str, s ≠ [] → (fields s).length < nproc →
      (∃ f ∈ fields s, f = [] ∨ 10 ≤ f.length) → (parsePIDs s pids).1 = false := by
  refine ⟨parsePIDs_render h hn trailing pids, ?_, fun s _ _ hs => parsePIDs_malformed hs pids⟩
  have hopts := options_commandLine name before after (isValidPidList_render list trailing)
  have hwf : ∀ l, .pids l ∈ commandOpts before (render list trailing) after → WellFormed l := by
    intro l hl
    rw [commandOpts, List.mem_append, List.mem_cons] at hl
    have hflags : ∀ flags : List Flag, .pids l ∉ flags.map Flag.opt := by
      intro flags hmem
      obtain ⟨f, -, hf⟩ := List.mem_map.mp hmem
      cases f <;> cases hf
    rcases hl with hl | hl | hl
    · exact absurd hl (hflags before)
    · cases hl
      exact render_wellFormed h hn trailing
    · exact absurd hl (hflags after)
  rw [← List.drop_one] at hopts
  rw [ps, psLoop_options hargs _ 1 _ (by simp) hopts hwf]
  simp only [bind, Except.bind, psLines_options hwf, requested_commandOpts h]

def digitNumeral (d : Fin 10) : Numeral := ⟨[d], List.cons_ne_nil d [], by simp⟩

theorem ps_filter_exact_two :
    ps [⟨.running, 7, none, 0, 0, lit "sh"⟩, ⟨.sleeping, 1, none, 0, 0, lit "init"⟩] (fun _ => 0) 5
        (commandLine (lit "ps") [.r] (render [digitNumeral 1, digitNumeral 7] true) [.l]) =
      .ok [.header true, .long 7 0 0 .running 0 (lit "sh")] := by
  have h := (ps_filter_exact
    [⟨.running, 7, none, 0, 0, lit "sh"⟩, ⟨.sleeping, 1, none, 0, 0, lit "init"⟩] (fun _ => 0) (lit "ps")
    [digitNumeral 1, digitNumeral 7] true [.r] [.l] (by simp) (by decide) (by decide)).2.1
  exact h

end Xv6.User
