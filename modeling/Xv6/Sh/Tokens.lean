import Mathlib.Data.List.GetD
import Mathlib.Data.List.TakeWhile
import Xv6.Sh.Lexer

/-! `gettoken` and `peek` go through the token sequence. -/
namespace Xv6.Sh

open Lib

theorem opOf_eq_none_iff (c : UInt8) : opOf c = none ↔ c ∉ symbols := by
  have hs : symbols = [60, 124, 62, 38, 59, 40, 41] := by decide
  unfold opOf
  rw [hs]
  split_ifs <;> simp_all

theorem isWord_iff {c : UInt8} (h : isSpace c = false) : isWord c = true ↔ opOf c = none := by
  rw [opOf_eq_none_iff, isWord, h]
  simp

section Tokens

variable {c : UInt8} {cs : Str}

theorem tokens_gtgt (h : opOf c = some .gt) (hs : isSpace c = false) (hc : cs.head? = some 62) :
    tokens (c :: cs) = .op .gtgt :: tokens cs.tail := by
  rw [tokens.eq_2, if_neg (by simp [hs]), h]
  exact if_pos hc

theorem tokens_gt (h : opOf c = some .gt) (hs : isSpace c = false) (hc : cs.head? ≠ some 62) :
    tokens (c :: cs) = .op .gt :: tokens cs := by
  rw [tokens.eq_2, if_neg (by simp [hs]), h]
  exact if_neg hc

theorem tokens_op {o : Op} (h : opOf c = some o) (hs : isSpace c = false) (ho : o ≠ .gt) :
    tokens (c :: cs) = .op o :: tokens cs := by
  rw [tokens.eq_2, if_neg (by simp [hs]), h]
  cases o with
  | gt => exact absurd rfl ho
  | _ => rfl

theorem tokens_word (h : opOf c = none) (hs : isSpace c = false) :
    tokens (c :: cs) = .word (c :: cs.takeWhile isWord) :: tokens (cs.dropWhile isWord) := by
  rw [tokens.eq_2, if_neg (by simp [hs]), h]

end Tokens

theorem tokens_dropWhile (cs : Str) : tokens (cs.dropWhile isSpace) = tokens cs := by
  induction cs with
  | nil => rfl
  | cons c cs ih =>
    by_cases h : isSpace c = true
    · rw [List.dropWhile_cons_of_pos h, ih, tokens.eq_2, if_pos h]
    · rw [List.dropWhile_cons_of_neg h]

namespace Text

variable {t : Text} {p n : ℕ} {c : UInt8} {cs : Str}

def rest (t : Text) (p : ℕ) : Str := t.chars.drop p

def toks (t : Text) (p : ℕ) : List Token := tokens (t.rest p)

theorem length_rest (t : Text) (p : ℕ) : (t.rest p).length = t.es - p := List.length_drop

theorem rest_ne_nil (h : p < t.es) : t.rest p = t.chars.getD p 0 :: t.rest (p + 1) := by
  rw [rest, List.drop_eq_getElem_cons h, List.getD_eq_getElem _ _ h]
  rfl

theorem rest_es (h : t.es ≤ p) : t.rest p = [] := List.drop_of_length_le h

theorem read_eq (h : p ≤ t.es) : t.read p = .ok ((t.rest p).headD 0) := by
  unfold read
  rcases Nat.lt_or_eq_of_le h with hlt | rfl
  · rw [rest_ne_nil hlt, List.getElem?_append_left hlt, List.getElem?_eq_getElem hlt,
      List.getD_eq_getElem _ _ hlt]
    rfl
  · rw [rest_es le_rfl, es, List.getElem?_append_right le_rfl, Nat.sub_self]
    rfl

theorem mem_rest (h : c ∈ t.rest p) : c ≠ 0 := by
  rintro rfl
  exact t.nul (List.mem_of_mem_drop h)

theorem scan_eq (f : UInt8 → Bool) (h : p ≤ t.es) :
    scan t f (t.es - p) p = .ok (p + ((t.rest p).takeWhile f).length) := by
  obtain ⟨n, hn⟩ : ∃ n, n = t.es - p := ⟨_, rfl⟩
  rw [← hn]
  induction n generalizing p with
  | zero =>
    rw [rest_es (by omega)]
    rfl
  | succ n ih =>
    have hlt : p < t.es := by omega
    rw [scan, read_eq h, rest_ne_nil hlt]
    show (if f (t.chars.getD p 0) = true then _ else _) = _
    split_ifs with hf
    · rw [ih (by omega) (by omega), List.takeWhile_cons_of_pos hf, List.length_cons]
      congr 1
      omega
    · rw [List.takeWhile_cons_of_neg hf]
      rfl

theorem rest_add (t : Text) (p n : ℕ) : t.rest (p + n) = (t.rest p).drop n := by
  rw [rest, rest, List.drop_drop]

theorem rest_scan (t : Text) (f : UInt8 → Bool) (p : ℕ) :
    t.rest (p + ((t.rest p).takeWhile f).length) = (t.rest p).dropWhile f := by
  rw [rest_add]
  nth_rewrite 2 [← List.takeWhile_append_dropWhile (p := f) (l := t.rest p)]
  exact List.drop_left' rfl

theorem scan_le (f : UInt8 → Bool) (h : p ≤ t.es) :
    p + ((t.rest p).takeWhile f).length ≤ t.es := by
  have := (List.takeWhile_prefix f (l := t.rest p)).length_le
  rw [length_rest] at this
  omega

theorem skip_spec (h : p ≤ t.es) : ∃ s, scan t isSpace (t.es - p) p = .ok s ∧ s ≤ t.es ∧
    t.toks s = t.toks p ∧ ∀ c ∈ (t.rest s).head?, isSpace c = false := by
  refine ⟨_, scan_eq isSpace h, scan_le isSpace h, ?_, ?_⟩
  · rw [toks, rest_scan, tokens_dropWhile, toks]
  · rw [rest_scan]
    intro c hc
    have := List.head?_dropWhile_not isSpace (t.rest p)
    rw [Option.mem_def.mp hc] at this
    simpa using this

end Text

structure WordAt (t : Text) (s : Span) : Prop where
  lt : s.q < s.eq
  le : s.eq ≤ t.es
  word : ∀ i, s.q ≤ i → i < s.eq → isWord (t.chars.getD i 0) = true
  stop : s.eq < t.es → isWord (t.chars.getD s.eq 0) = false

def Text.text (t : Text) (s : Span) : Str := (t.rest s.q).take (s.eq - s.q)

/-- What a call of `gettoken` returns and leaves of the tokens. -/
inductive Reads (t : Text) (s : Span) : List Token → Ret → List Token → Prop
  | nul : Reads t s [] .nul []
  | op (o : Op) (ts : List Token) : Reads t s (.op o :: ts) (.op o) ts
  | word (ts : List Token) (h : WordAt t s) : Reads t s (.word (t.text s) :: ts) .a ts

variable {t : Text} {p : ℕ}

theorem switch_word {c : UInt8} {cs : Str} (h : p ≤ t.es) (hd : t.rest p = c :: cs)
    (hs : isSpace c = false) (ho : opOf c = none) :
    ∃ e, scan t isWord (t.es - p) p = .ok e ∧ e ≤ t.es ∧
      Reads t ⟨p, e⟩ (t.toks p) .a (t.toks e) := by
  have hw : isWord c = true := (isWord_iff hs).mpr ho
  have htake : (t.rest p).takeWhile isWord = c :: cs.takeWhile isWord := by
    rw [hd, List.takeWhile_cons_of_pos hw]
  have hdrop : (t.rest p).dropWhile isWord = cs.dropWhile isWord := by
    rw [hd, List.dropWhile_cons_of_pos hw]
  set e := p + ((t.rest p).takeWhile isWord).length with he
  have hrest := t.rest_scan isWord p
  rw [← he, hdrop] at hrest
  have hle : e ≤ t.es := Text.scan_le isWord h
  have hlen : e - p = ((t.rest p).takeWhile isWord).length := by omega
  have hchar : ∀ i, p ≤ i → t.chars.getD i 0 = (t.rest p).getD (i - p) 0 := by
    intro i hi
    rw [Text.rest, List.getD_eq_getElem?_getD, List.getD_eq_getElem?_getD, List.getElem?_drop,
      Nat.add_sub_cancel' hi]
  have htext : t.text ⟨p, e⟩ = c :: cs.takeWhile isWord := by
    rw [Text.text, hlen, ← htake]
    nth_rewrite 2 [← List.takeWhile_append_dropWhile (p := isWord) (l := t.rest p)]
    exact List.take_left' rfl
  have hat : WordAt t ⟨p, e⟩ := by
    refine ⟨?_, hle, ?_, ?_⟩
    · show p < e
      rw [he, htake, List.length_cons]
      omega
    · intro i hi hie
      change p ≤ i at hi
      change i < e at hie
      have hlt : i - p < ((t.rest p).takeWhile isWord).length := by omega
      rw [hchar i hi, ← List.takeWhile_append_dropWhile (p := isWord) (l := t.rest p),
        List.getD_append _ _ _ _ hlt, List.getD_eq_getElem _ _ hlt]
      exact List.mem_takeWhile_imp (List.getElem_mem hlt)
    · intro hlt
      have hnot := List.head?_dropWhile_not isWord (t.rest p)
      rw [hdrop, ← hrest, Text.rest_ne_nil hlt] at hnot
      simpa using hnot
  refine ⟨e, Text.scan_eq isWord h, hle, ?_⟩
  rw [Text.toks, hd, tokens_word ho hs, Text.toks, hrest, ← htext]
  exact .word _ hat

theorem switch_spec (h : p ≤ t.es) (hs : ∀ c ∈ (t.rest p).head?, isSpace c = false) :
    ∃ r e, switch t p = .ok (r, e) ∧ e ≤ t.es ∧ Reads t ⟨p, e⟩ (t.toks p) r (t.toks e) := by
  unfold switch
  rw [Text.read_eq h]
  cases hd : t.rest p with
  | nil =>
    refine ⟨.nul, p, rfl, h, ?_⟩
    rw [Text.toks, hd, tokens.eq_1]
    exact .nul
  | cons c cs =>
    have hc : c ≠ 0 := Text.mem_rest (hd ▸ List.mem_cons_self)
    have hsp : isSpace c = false := hs c (by rw [hd]; rfl)
    have hlt : p + 1 ≤ t.es := by
      have := t.length_rest p
      rw [hd, List.length_cons] at this
      omega
    have hnext : t.rest (p + 1) = cs := by rw [Text.rest_add, hd, List.drop_one, List.tail_cons]
    rw [List.headD_cons]
    show ∃ r e, (if c = 0 then _ else _) = Except.ok (r, e) ∧ _
    rw [if_neg hc]
    cases ho : opOf c with
    | none =>
      obtain ⟨e, he, hle, hread⟩ := switch_word h hd hsp ho
      refine ⟨.a, e, ?_, hle, hread⟩
      simp only [he]
      rfl
    | some o =>
      by_cases hgt : o = .gt
      · subst hgt
        simp only [Text.read_eq hlt, hnext]
        by_cases hc' : cs.headD 0 = 62
        · have hcons : cs = 62 :: cs.tail := by
            cases cs with
            | nil => exact absurd hc' (by decide)
            | cons d ds =>
              have : d = 62 := hc'
              rw [this]
              rfl
          refine ⟨.op .gtgt, p + 2, ?_, ?_, ?_⟩
          · show (if cs.headD 0 = 62 then _ else _) = _
            rw [if_pos hc']
            rfl
          · have := t.length_rest (p + 1)
            rw [hnext, hcons, List.length_cons] at this
            omega
          · have htail : t.rest (p + 2) = cs.tail := by
              rw [Text.rest_add t p 2, hd, ← List.drop_one, List.drop_succ_cons]
            rw [Text.toks, hd, tokens_gtgt ho hsp (by rw [hcons]; rfl), Text.toks, htail]
            exact .op _ _
        · refine ⟨.op .gt, p + 1, ?_, hlt, ?_⟩
          · show (if cs.headD 0 = 62 then _ else _) = _
            rw [if_neg hc']
            rfl
          · rw [Text.toks, hd, tokens_gt ho hsp, Text.toks, hnext]
            · exact .op _ _
            · intro hh
              rw [List.headD_eq_head?_getD, hh] at hc'
              exact hc' rfl
      · refine ⟨.op o, p + 1, ?_, hlt, ?_⟩
        · cases o with
          | gt => exact absurd rfl hgt
          | _ => rfl
        · rw [Text.toks, hd, tokens_op ho hsp hgt, Text.toks, hnext]
          exact .op _ _

/-- `gettoken` reads one token of the string. -/
theorem gettoken_spec (h : p ≤ t.es) : ∃ r s p', Gives (gettoken t) p (r, s) p' ∧ p' ≤ t.es ∧
    Reads t s (t.toks p) r (t.toks p') := by
  obtain ⟨q, hq, hqe, hqt, hqs⟩ := Text.skip_spec h
  obtain ⟨r, e, hr, hee, hread⟩ := switch_spec hqe hqs
  obtain ⟨p', hp', hpe, hpt, -⟩ := Text.skip_spec hee
  refine ⟨r, ⟨q, e⟩, p', ?_, hpe, ?_⟩
  · unfold Gives gettoken
    rw [hq]
    show (switch t q >>= _) = _
    rw [hr]
    show (scan t isSpace (t.es - e) e >>= _) = _
    rw [hp']
    rfl
  · rwa [hpt, ← hqt]

theorem opOf_char {c : UInt8} {o : Op} (h : opOf c = some o) : o.char = c := by
  unfold opOf at h
  split_ifs at h with h₁ h₂ h₃ h₄ h₅ h₆ h₇
  all_goals
    obtain rfl := Option.some.inj h
    exact Eq.symm ‹c = _›

/-- The first token begins with one of these characters. -/
def startsWith (cs : Str) : List Token → Bool
  | .op o :: _ => o.char ∈ cs
  | _ => false

theorem startsWith_tokens {c : UInt8} {ds cs : Str} (hs : isSpace c = false) (hcs : cs ⊆ symbols) :
    startsWith cs (tokens (c :: ds)) = decide (c ∈ cs) := by
  cases ho : opOf c with
  | none =>
    have hc : c ∉ cs := fun h => (opOf_eq_none_iff c).mp ho (hcs h)
    rw [tokens_word ho hs]
    simp [startsWith, hc]
  | some o =>
    have hchar := opOf_char ho
    by_cases hgt : o = .gt
    · subst hgt
      by_cases hh : ds.head? = some 62
      · rw [tokens_gtgt ho hs hh, ← hchar]
        rfl
      · rw [tokens_gt ho hs hh, ← hchar]
        rfl
    · rw [tokens_op ho hs hgt, ← hchar]
      rfl

theorem tokens_ne_nil {c : UInt8} {ds : Str} (hs : isSpace c = false) : tokens (c :: ds) ≠ [] := by
  rw [tokens.eq_2, if_neg (by simp [hs])]
  split
  · split <;> exact List.cons_ne_nil _ _
  · exact List.cons_ne_nil _ _
  · exact List.cons_ne_nil _ _

/-- `peek` tells the next token without reading it. -/
theorem peek_spec (h : p ≤ t.es) {cs : Str} (hcs : cs ⊆ symbols) : ∃ p',
    Gives (peek t cs) p (startsWith cs (t.toks p)) p' ∧ p' ≤ t.es ∧ t.toks p' = t.toks p ∧
      (t.toks p = [] → p' = t.es) := by
  obtain ⟨s, hs, hse, hst, hsp⟩ := Text.skip_spec h
  refine ⟨s, ?_, hse, hst, fun hnil => ?_⟩
  · unfold Gives peek
    rw [hs]
    show (t.read s >>= _) = _
    rw [Text.read_eq hse, ← hst, Text.toks]
    show Except.ok (((t.rest s).headD 0 ≠ 0 && (t.rest s).headD 0 ∈ cs : Bool), s) = _
    cases hd : t.rest s with
    | nil =>
      rw [tokens.eq_1]
      rfl
    | cons c ds =>
      have hc : c ≠ 0 := Text.mem_rest (hd ▸ List.mem_cons_self)
      rw [startsWith_tokens (hsp c (by rw [hd]; rfl)) hcs]
      simp [hc]
  · rw [← hst, Text.toks] at hnil
    by_contra hne
    have hlt : s < t.es := by omega
    rw [Text.rest_ne_nil hlt] at hnil hsp
    exact tokens_ne_nil (hsp _ rfl) hnil

end Xv6.Sh
