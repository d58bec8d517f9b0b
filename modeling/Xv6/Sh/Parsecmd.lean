import Xv6.Sh.Complete

/-! `parsecmd` accepts exactly the grammar, and `nulterminate` leaves every word in place. -/
namespace Xv6.Sh

open Lib

section Strings

variable {α β : Type}

/-- The strings of a command, in the order in which `nulterminate` comes to them. -/
def Cmd.strings : Cmd α → List α
  | exec argv => argv
  | redir cmd r => cmd.strings ++ [r.file]
  | pipe left right => left.strings ++ right.strings
  | list left right => left.strings ++ right.strings
  | back cmd => cmd.strings

theorem Cmd.all_iff {P : α → Prop} (c : Cmd α) : c.All P ↔ ∀ a ∈ c.strings, P a := by
  induction c with
  | exec argv => rfl
  | redir c r ih => simp [All, strings, ih, or_imp, forall_and]
  | pipe l r ihl ihr => simp only [All, strings, ihl, ihr, List.forall_mem_append]
  | list l r ihl ihr => simp only [All, strings, ihl, ihr, List.forall_mem_append]
  | back c ih => exact ih

theorem Cmd.map_congr {f g : α → β} {c : Cmd α} (h : ∀ a ∈ c.strings, f a = g a) :
    c.map f = c.map g := by
  induction c with
  | exec argv => exact congrArg exec (List.map_congr_left h)
  | redir c r ih =>
    rw [strings, List.forall_mem_append] at h
    rw [map, map, ih h.1, Redir.map, Redir.map, h.2 r.file (List.mem_singleton.mpr rfl)]
  | pipe l r ihl ihr =>
    rw [strings, List.forall_mem_append] at h
    rw [map, map, ihl h.1, ihr h.2]
  | list l r ihl ihr =>
    rw [strings, List.forall_mem_append] at h
    rw [map, map, ihl h.1, ihr h.2]
  | back c ih => rw [map, map, ih h]

end Strings

theorem nulterminate_eq (c : Cmd Span) (buf : List UInt8) :
    nulterminate c buf = c.strings.foldl (fun buf s => buf.set s.eq 0) buf := by
  induction c generalizing buf with
  | exec argv => rfl
  | redir c r ih => rw [nulterminate, ih, Cmd.strings, List.foldl_append, List.foldl_cons, List.foldl_nil]
  | pipe l r ihl ihr => rw [nulterminate, ihl, ihr, Cmd.strings, List.foldl_append]
  | list l r ihl ihr => rw [nulterminate, ihl, ihr, Cmd.strings, List.foldl_append]
  | back c ih => exact ih buf

theorem getElem?_foldl_set (ss : List Span) (buf : List UInt8) (i : ℕ) :
    (ss.foldl (fun buf s => buf.set s.eq 0) buf)[i]? =
      if ∃ s ∈ ss, s.eq = i then buf[i]?.map (fun _ => 0) else buf[i]? := by
  induction ss generalizing buf with
  | nil => simp
  | cons s ss ih =>
    rw [List.foldl_cons, ih, List.getElem?_set]
    by_cases hi : s.eq = i
    · by_cases hlt : s.eq < buf.length
      · simp [hi, hi ▸ hlt]
      · simp [hi, hi ▸ hlt]
    · simp [hi]

variable {t : Text} {s : Span} {c : Cmd Span}

/-- The ends of words are not inside words: the NULs leave every word as it is. -/
theorem cstr_nulterminate (hall : ∀ s ∈ c.strings, WordAt t s) (hs : s ∈ c.strings) :
    cstr (nulterminate c (t.chars ++ [0])) s.q = t.text s := by
  have hw := hall s hs
  have hlt := hw.lt
  have hle := hw.le
  set buf := nulterminate c (t.chars ++ [0]) with hbuf
  have hget : ∀ i, buf[i]? = if ∃ s ∈ c.strings, s.eq = i then
      (t.chars ++ [0])[i]?.map (fun _ => 0) else (t.chars ++ [0])[i]? := by
    intro i
    rw [hbuf, nulterminate_eq, getElem?_foldl_set]
  have hend : buf[s.eq]? = some 0 := by
    have hin : s.eq < (t.chars ++ [0]).length := by
      rw [List.length_append]
      exact Nat.lt_succ_of_le hle
    rw [hget, if_pos ⟨s, hs, rfl⟩, List.getElem?_eq_getElem hin]
    rfl
  have hbody : ∀ i, s.q ≤ i → i < s.eq → buf[i]? = t.chars[i]? := by
    intro i h₁ h₂
    have hi : i < t.chars.length := h₂.trans_le hle
    rw [hget, if_neg, List.getElem?_append_left hi]
    rintro ⟨s', hs', rfl⟩
    have hyes := hw.word _ h₁ h₂
    rw [(hall s' hs').stop hi] at hyes
    cases hyes
  have htake : (buf.drop s.q).take (s.eq - s.q) = t.text s := by
    apply List.ext_getElem?
    intro i
    rw [Text.text, Text.rest, List.getElem?_take, List.getElem?_take]
    split_ifs with hi
    · rw [List.getElem?_drop, List.getElem?_drop, hbody _ (by omega) (by omega)]
    · rfl
  have hdrop : (buf.drop s.q).drop (s.eq - s.q) = 0 :: buf.drop (s.eq + 1) := by
    obtain ⟨h, h0⟩ := List.getElem?_eq_some_iff.mp hend
    rw [List.drop_drop, Nat.add_sub_cancel' hlt.le, List.drop_eq_getElem_cons h, h0]
  have hsplit : buf.drop s.q = t.text s ++ 0 :: buf.drop (s.eq + 1) := by
    rw [← htake, ← hdrop, List.take_append_drop]
  rw [cstr, hsplit, List.takeWhile_append_of_pos, List.takeWhile_cons_of_neg, List.append_nil]
  · simp
  · intro a ha
    have : a ≠ 0 := Text.mem_rest (List.mem_of_mem_take ha)
    simpa using this

theorem length_tokens_le (cs : Str) : (tokens cs).length ≤ cs.length := by
  fun_induction tokens cs with
  | case1 => exact le_rfl
  | case2 c cs _ ih => exact ih.trans (Nat.le_succ _)
  | case3 c cs _ _ _ ih =>
    rw [List.length_tail] at ih
    simp only [List.length_cons]
    omega
  | case4 c cs _ _ _ ih => exact Nat.succ_le_succ ih
  | case5 c cs _ o _ _ ih => exact Nat.succ_le_succ ih
  | case6 c cs _ _ ih => exact Nat.succ_le_succ (ih.trans (List.dropWhile_sublist _).length_le)

theorem parsecmd_of_error {e : Fault} (h : parseline t t.fuel 0 = .error e) :
    parsecmd t = .error e := by
  unfold parsecmd
  rw [h]
  rfl

theorem parsecmd_of_ok {p : ℕ} (h : parseline t t.fuel 0 = .ok (c, p)) (hp : p ≤ t.es) :
    parsecmd t = if t.toks p = [] then .ok (c, nulterminate c (t.chars ++ [0]))
      else .error (.panic "syntax") := by
  obtain ⟨p', hgives, hle, htoks, hnil⟩ := peek_spec hp (List.nil_subset symbols)
  have hend : p' = t.es ↔ t.toks p = [] := by
    refine ⟨fun he => ?_, hnil⟩
    rw [← htoks, he, Text.toks, Text.rest_es le_rfl, tokens.eq_1]
  unfold parsecmd
  rw [h]
  show (peek t [] p >>= _) = _
  rw [show peek t [] p = _ from hgives]
  show (if p' ≠ t.es then _ else _) = _
  by_cases he : p' = t.es
  · rw [if_neg (not_not.mpr he), if_pos (hend.mp he)]
    rfl
  · rw [if_pos he, if_neg (mt hend.mpr he)]
    rfl

/-- `parsecmd` returns the tree of the derivation of the token sequence, with the strings of the
buffer as it is afterwards, if there is one; and panics otherwise, having read nothing beyond the NUL. -/
theorem parsecmd_accepts_grammar (t : Text) :
    (∀ c, Derives .line (tokens t.chars) c ↔
      ∃ cmd buf, parsecmd t = .ok (cmd, buf) ∧ cmd.map (fun s => cstr buf s.q) = c) ∧
    ∀ e, parsecmd t = .error e → ∃ msg, e = .panic msg := by
  have htoks : t.toks 0 = tokens t.chars := rfl
  have hcalls : Nonterminal.line.calls (t.toks 0).length ≤ t.fuel := by
    have := length_tokens_le t.chars
    show 4 * (tokens t.chars).length + 4 ≤ 4 * t.chars.length + 4
    omega
  have hsound := sound t .line t.fuel 0 (Nat.zero_le _) hcalls
  have hstrings : ∀ {c p w}, Parsed t .line 0 c p w →
      c.map (fun s => cstr (nulterminate c (t.chars ++ [0])) s.q) = c.map t.text := by
    intro c p w hparsed
    apply Cmd.map_congr
    intro s hs
    exact cstr_nulterminate ((Cmd.all_iff c).mp hparsed.words) hs
  cases hline : parseline t t.fuel 0 with
  | error e =>
    have hcmd := parsecmd_of_error hline
    refine ⟨fun c => ⟨fun hder => ?_, ?_⟩, ?_⟩
    · obtain ⟨c', p', hgives, -⟩ := hder.accepts (t := t) 0 [] t.fuel (Nat.zero_le _)
        (by rw [htoks, List.append_nil]) (Or.inl rfl) hcalls
      rw [show parseline t t.fuel 0 = _ from hgives] at hline
      cases hline
    · rintro ⟨cmd, buf, hok, -⟩
      rw [hcmd] at hok
      cases hok
    · intro e' he'
      rw [hcmd] at he'
      cases he'
      exact hsound.of_error hline
  | ok r =>
    obtain ⟨c, p⟩ := r
    obtain ⟨w, hparsed⟩ := hsound.of_ok hline
    have hcmd := parsecmd_of_ok hline hparsed.consumes.le
    refine ⟨fun d => ⟨fun hder => ?_, ?_⟩, ?_⟩
    · obtain ⟨c', p', hgives, -, hnil, hc'⟩ := hder.accepts (t := t) 0 [] t.fuel (Nat.zero_le _)
        (by rw [htoks, List.append_nil]) (Or.inl rfl) hcalls
      rw [show parseline t t.fuel 0 = _ from hgives] at hline
      cases hline
      rw [if_pos hnil] at hcmd
      exact ⟨c, _, hcmd, (hstrings hparsed).trans hc'⟩
    · rintro ⟨cmd, buf, hok, rfl⟩
      rw [hcmd] at hok
      split_ifs at hok with hnil
      cases hok
      rw [hstrings hparsed, ← htoks, hparsed.consumes.toks, hnil, List.append_nil]
      exact hparsed.derives
    · intro e he
      rw [hcmd] at he
      split_ifs at he
      cases he
      exact ⟨_, rfl⟩

end Xv6.Sh
