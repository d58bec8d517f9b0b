import Xv6.Sh.Tokens
import Xv6.Sh.Grammar

/-! What the parser accepts is derivable; besides that it only panics. -/
namespace Xv6.Sh

open Lib

variable {t : Text} {s : Span} {p p' p'' n fuel : ℕ} {w w' ts : List Token} {c : Cmd Span}

theorem Reads.of_op {o : Op} {r : Ret} {ts' : List Token} (h : Reads t s (.op o :: ts) r ts') :
    r = .op o ∧ ts' = ts := by
  cases h
  exact ⟨rfl, rfl⟩

theorem Reads.of_a {ts' : List Token} (h : Reads t s ts .a ts') :
    WordAt t s ∧ ts = .word (t.text s) :: ts' := by
  cases h with
  | word _ h => exact ⟨h, rfl⟩

theorem Reads.of_nul {ts' : List Token} (h : Reads t s ts .nul ts') : ts = [] ∧ ts' = [] := by
  cases h
  exact ⟨rfl, rfl⟩

theorem startsWith_iff (cs : Str) :
    startsWith cs ts = true ↔ ∃ o ts', ts = .op o :: ts' ∧ o.char ∈ cs := by
  constructor
  · intro h
    unfold startsWith at h
    split at h
    · exact ⟨_, _, rfl, of_decide_eq_true h⟩
    · cases h
  · rintro ⟨o, ts', rfl, h⟩
    exact decide_eq_true h

section

variable {ts : List Token}

theorem startsWith_single {cs : Str} {o : Op} (hcs : ∀ o', o'.char ∈ cs ↔ o' = o) :
    startsWith cs ts = true ↔ ∃ ts', ts = .op o :: ts' := by
  rw [startsWith_iff]
  constructor
  · rintro ⟨o', ts', rfl, h⟩
    exact ⟨ts', by rw [(hcs o').mp h]⟩
  · rintro ⟨ts', rfl⟩
    exact ⟨o, ts', rfl, (hcs o).mpr rfl⟩

theorem startsWith_amp : startsWith (lit "&") ts = true ↔ ∃ ts', ts = .op .amp :: ts' :=
  startsWith_single fun o => by cases o <;> decide

theorem startsWith_semi : startsWith (lit ";") ts = true ↔ ∃ ts', ts = .op .semi :: ts' :=
  startsWith_single fun o => by cases o <;> decide

theorem startsWith_pipe : startsWith (lit "|") ts = true ↔ ∃ ts', ts = .op .pipe :: ts' :=
  startsWith_single fun o => by cases o <;> decide

theorem startsWith_lparen : startsWith (lit "(") ts = true ↔ ∃ ts', ts = .op .lparen :: ts' :=
  startsWith_single fun o => by cases o <;> decide

theorem startsWith_rparen : startsWith (lit ")") ts = true ↔ ∃ ts', ts = .op .rparen :: ts' :=
  startsWith_single fun o => by cases o <;> decide

end

/-- A panic of the shell, not a fault of the memory or of the model. -/
def Panics (e : Fault) : Prop := ∃ msg, e = .panic msg

section Steps

variable {α : Type} {Q : α → ℕ → Prop}

theorem ensures_peek {cs : Str} {k : Bool → Parser α} (hp : p ≤ t.es) (hcs : cs ⊆ symbols)
    (h : ∀ p', p' ≤ t.es → t.toks p' = t.toks p →
      Ensures Panics (k (startsWith cs (t.toks p))) Q p') :
    Ensures Panics (peek t cs >>= k) Q p := by
  obtain ⟨p', hgives, hle, htoks, -⟩ := peek_spec hp hcs
  refine (Ensures.of_gives hgives ⟨rfl, hle, htoks⟩).bind (Q := fun b p' =>
    b = startsWith cs (t.toks p) ∧ p' ≤ t.es ∧ t.toks p' = t.toks p) ?_
  rintro _ p' ⟨rfl, hle, htoks⟩
  exact h p' hle htoks

theorem ensures_gettoken {k : Ret × Span → Parser α} (hp : p ≤ t.es)
    (h : ∀ r s p', p' ≤ t.es → Reads t s (t.toks p) r (t.toks p') → Ensures Panics (k (r, s)) Q p') :
    Ensures Panics (gettoken t >>= k) Q p := by
  obtain ⟨r, s, p', hgives, hle, hread⟩ := gettoken_spec hp
  refine (Ensures.of_gives hgives ⟨hle, hread⟩).bind (Q := fun rs p' =>
    p' ≤ t.es ∧ Reads t rs.2 (t.toks p) rs.1 (t.toks p')) ?_
  rintro ⟨r, s⟩ p' ⟨hle, hread⟩
  exact h r s p' hle hread

theorem ensures_symbol {o : Op} {k : Ret × Span → Parser α} (hp : p ≤ t.es)
    (ht : t.toks p = .op o :: ts)
    (h : ∀ s p', p' ≤ t.es → t.toks p' = ts → Ensures Panics (k (.op o, s)) Q p') :
    Ensures Panics (gettoken t >>= k) Q p := by
  apply ensures_gettoken hp
  intro r s p' hle hread
  rw [ht] at hread
  obtain ⟨rfl, htoks⟩ := hread.of_op
  exact h s p' hle htoks

end Steps

/-- The tokens `w` have been read. -/
structure Consumes (t : Text) (p p' : ℕ) (w : List Token) : Prop where
  le : p' ≤ t.es
  toks : t.toks p = w ++ t.toks p'

theorem Consumes.trans (h : Consumes t p p' w) (h' : Consumes t p' p'' w') :
    Consumes t p p'' (w ++ w') := by
  refine ⟨h'.le, ?_⟩
  rw [h.toks, h'.toks, List.append_assoc]

theorem Consumes.length_le (h : Consumes t p p' w) : (t.toks p').length ≤ (t.toks p).length := by
  rw [h.toks, List.length_append]
  omega

structure ReadRedirs (t : Text) (p p' : ℕ) (w : List Token) (rs : List (Redir Span)) : Prop where
  consumes : Consumes t p p' w
  redirs : Redirs w (rs.map (Redir.map t.text))
  words : ∀ r ∈ rs, WordAt t r.file

theorem parseredirs_sound (hp : p ≤ t.es) (hf : (t.toks p).length < fuel) (c : Cmd Span) :
    Ensures Panics (parseredirs t fuel c)
      (fun c' p' => ∃ w rs, ReadRedirs t p p' w rs ∧ c' = rs.foldl .redir c) p := by
  induction fuel generalizing p c with
  | zero => exact absurd hf (Nat.not_lt_zero _)
  | succ fuel ih =>
    unfold parseredirs
    apply ensures_peek hp (by decide)
    intro p₁ h₁ ht₁
    by_cases hb : startsWith (lit "<>") (t.toks p) = true
    · rw [if_pos hb]
      obtain ⟨o, ts, hts, ho⟩ := (startsWith_iff _).mp hb
      apply ensures_symbol h₁ (ht₁.trans hts)
      intro s₁ p₂ h₂ ht₂
      apply ensures_gettoken h₂
      intro r s₂ p₃ h₃ hread
      by_cases hr : r = .a
      · subst hr
        obtain ⟨hw, htw⟩ := hread.of_a
        obtain ⟨r, hor, hfile⟩ := Op.redir_of_char ho s₂
        have htoks : t.toks p = .op o :: .word (t.text s₂) :: t.toks p₃ := by
          rw [hts, ← ht₂, htw]
        have hlen : (t.toks p₃).length < fuel := by
          rw [htoks, List.length_cons, List.length_cons] at hf
          omega
        have hred : (Ret.op o).redirect s₂ c = c.redir r := by
          rw [Ret.redirect, hor]
          rfl
        dsimp only
        rw [if_neg (by simp), hred]
        refine (ih h₃ hlen _).mono ?_
        rintro c' p' ⟨w, rs, ⟨hcon, hrs, hall⟩, rfl⟩
        refine ⟨.op o :: .word (t.text s₂) :: w, r :: rs, ⟨⟨hcon.le, ?_⟩, ?_, ?_⟩, rfl⟩
        · rw [htoks, hcon.toks]
          rfl
        · apply Redirs.cons _ hrs
          rw [Op.redir_map, hor]
          rfl
        · rw [List.forall_mem_cons, hfile]
          exact ⟨hw, hall⟩
      · dsimp only
        rw [if_pos hr]
        exact .throw ⟨_, rfl⟩
    · rw [if_neg hb]
      refine .pure ⟨[], [], ⟨⟨h₁, ht₁.symm⟩, .nil, ?_⟩, rfl⟩
      exact fun _ h => absurd h List.not_mem_nil

structure ReadArgs (t : Text) (p p' : ℕ) (w : List Token) (argv : List Span)
    (rs : List (Redir Span)) : Prop where
  consumes : Consumes t p p' w
  args : Args w (argv.map t.text) (rs.map (Redir.map t.text))
  words : (∀ a ∈ argv, WordAt t a) ∧ ∀ r ∈ rs, WordAt t r.file

theorem parseargs_sound (hp : p ≤ t.es) (hf : (t.toks p).length < fuel) (argv₀ : List Span)
    (rs₀ : List (Redir Span)) (hlen : argv₀.length < maxArgs) :
    Ensures Panics (parseargs t fuel argv₀.length (rs₀.foldl .redir (.exec argv₀)))
      (fun c' p' => ∃ w argv rs, ReadArgs t p p' w argv rs ∧ (argv₀ ++ argv).length < maxArgs ∧
        c' = (rs₀ ++ rs).foldl .redir (.exec (argv₀ ++ argv))) p := by
  induction fuel generalizing p argv₀ rs₀ with
  | zero => exact absurd hf (Nat.not_lt_zero _)
  | succ fuel ih =>
    have hstop : ∀ p' ≤ t.es, t.toks p' = t.toks p → ∃ w argv rs, ReadArgs t p p' w argv rs ∧
        (argv₀ ++ argv).length < maxArgs ∧ rs₀.foldl Cmd.redir (.exec argv₀) =
          (rs₀ ++ rs).foldl .redir (.exec (argv₀ ++ argv)) := by
      intro p' h' ht'
      refine ⟨[], [], [], ⟨⟨h', ht'.symm⟩, .nil, ?_, ?_⟩, ?_, ?_⟩
      · exact fun _ h => absurd h List.not_mem_nil
      · exact fun _ h => absurd h List.not_mem_nil
      · rwa [List.append_nil]
      · rw [List.append_nil, List.append_nil]
    unfold parseargs
    apply ensures_peek hp (by decide)
    intro p₁ h₁ ht₁
    by_cases hb : startsWith (lit "|)&;") (t.toks p) = true
    · rw [if_pos hb]
      exact .pure (hstop p₁ h₁ ht₁)
    · rw [if_neg hb]
      apply ensures_gettoken h₁
      intro r s p₂ h₂ hread
      rw [ht₁] at hread
      cases r with
      | nul =>
        obtain ⟨hnil, hnil'⟩ := hread.of_nul
        exact .pure (hstop p₂ h₂ (hnil'.trans hnil.symm))
      | op o => exact .throw ⟨_, rfl⟩
      | a =>
        obtain ⟨hw, htoks⟩ := hread.of_a
        dsimp only
        rw [if_neg (by decide), if_neg (by decide)]
        by_cases hmax : argv₀.length + 1 ≥ maxArgs
        · rw [if_pos hmax]
          exact .throw ⟨_, rfl⟩
        · rw [if_neg hmax, Cmd.addArg_foldl_redir]
          have hlen₂ : (t.toks p₂).length < fuel := by
            rw [htoks, List.length_cons] at hf
            omega
          apply (parseredirs_sound h₂ hlen₂ _).bind
          rintro _ p₃ ⟨w, rs, ⟨hcon, hrs, hall⟩, rfl⟩
          have hargs := ih hcon.le (hcon.length_le.trans_lt hlen₂) (argv₀ ++ [s]) (rs₀ ++ rs)
            (by simpa using hmax)
          rw [List.length_append, List.length_singleton, List.foldl_append] at hargs
          refine hargs.mono ?_
          rintro c' p' ⟨w', argv, rs', ⟨hcon', hargs', hall₁, hall₂⟩, hlen', hc'⟩
          refine ⟨.word (t.text s) :: (w ++ w'), s :: argv, rs ++ rs', ⟨⟨hcon'.le, ?_⟩, ?_, ?_, ?_⟩,
            ?_, ?_⟩
          · rw [htoks, (hcon.trans hcon').toks]
            rfl
          · rw [List.map_cons, List.map_append]
            exact .cons hrs hargs'
          · rw [List.forall_mem_cons]
            exact ⟨hw, hall₁⟩
          · rw [List.forall_mem_append]
            exact ⟨hall, hall₂⟩
          · rwa [List.append_cons]
          · rw [hc', List.append_assoc rs₀, List.append_assoc argv₀, List.singleton_append]

theorem parsebacks_sound (hp : p ≤ t.es) (hf : (t.toks p).length < fuel) (c : Cmd Span) :
    Ensures Panics (parsebacks t fuel c) (fun c' p' => ∃ n,
      Consumes t p p' (List.replicate n (.op .amp)) ∧ c' = Cmd.back^[n] c) p := by
  induction fuel generalizing p c with
  | zero => exact absurd hf (Nat.not_lt_zero _)
  | succ fuel ih =>
    unfold parsebacks
    apply ensures_peek hp (by decide)
    intro p₁ h₁ ht₁
    by_cases hb : startsWith (lit "&") (t.toks p) = true
    · rw [if_pos hb]
      obtain ⟨ts, hts⟩ := startsWith_amp.mp hb
      apply ensures_symbol h₁ (ht₁.trans hts)
      intro s p₂ h₂ ht₂
      rw [hts, List.length_cons] at hf
      refine (ih h₂ (by rw [ht₂]; omega) _).mono ?_
      rintro c' p' ⟨n, hcon, rfl⟩
      refine ⟨n + 1, ⟨hcon.le, ?_⟩, rfl⟩
      rw [hts, ← ht₂, hcon.toks]
      rfl
    · rw [if_neg hb]
      exact .pure ⟨0, ⟨h₁, ht₁.symm⟩, rfl⟩

/-- A command of the kind `n` has been read. -/
structure Parsed (t : Text) (k : Nonterminal) (p : ℕ) (c : Cmd Span) (p' : ℕ) (w : List Token) :
    Prop where
  consumes : Consumes t p p' w
  derives : Derives k w (c.map t.text)
  words : c.All (WordAt t)

/-- The calls that are enough for so many tokens. -/
def Nonterminal.calls : Nonterminal → ℕ → ℕ
  | line, n => 4 * n + 4
  | pipe, n => 4 * n + 3
  | exec, n => 4 * n + 2

def Nonterminal.parse (t : Text) : Nonterminal → ℕ → Parser (Cmd Span)
  | line => parseline t
  | pipe => parsepipe t
  | exec => parseexec t

/-- The parser of a nonterminal, with this fuel, reads a command of its kind. -/
def Sound (t : Text) (k : Nonterminal) (fuel : ℕ) : Prop :=
  ∀ p ≤ t.es, k.calls (t.toks p).length ≤ fuel →
    Ensures Panics (k.parse t fuel) (fun c p' => ∃ w, Parsed t k p c p' w) p

theorem parseline_sound (hpipe : Sound t .pipe fuel) (hline : Sound t .line fuel) :
    Sound t .line (fuel + 1) := by
  intro p hp hf
  change 4 * (t.toks p).length + 4 ≤ fuel + 1 at hf
  show Ensures Panics (parseline t (fuel + 1)) _ p
  unfold parseline
  apply (hpipe p hp (by show 4 * (t.toks p).length + 3 ≤ fuel; omega)).bind
  rintro c p₁ ⟨w, hcon, hder, hall⟩
  have hlen := hcon.length_le
  apply (parsebacks_sound hcon.le (by omega) c).bind
  rintro _ p₂ ⟨n, hcon₂, rfl⟩
  have hlen₂ := hcon₂.length_le
  apply ensures_peek hcon₂.le (by decide)
  intro p₃ h₃ ht₃
  by_cases hb : startsWith (lit ";") (t.toks p₂) = true
  · rw [if_pos hb]
    obtain ⟨ts, hts⟩ := startsWith_semi.mp hb
    rw [hts, List.length_cons] at hlen₂
    apply ensures_symbol h₃ (ht₃.trans hts)
    intro s p₄ h₄ ht₄
    apply (hline p₄ h₄ (by show 4 * (t.toks p₄).length + 4 ≤ fuel; rw [ht₄]; omega)).bind
    rintro c' p' ⟨w', hcon', hder', hall'⟩
    refine .pure ⟨w ++ List.replicate n (.op .amp) ++ .op .semi :: w', ⟨hcon'.le, ?_⟩, ?_,
      hall.back n, hall'⟩
    · rw [(hcon.trans hcon₂).toks, hts, ← ht₄, hcon'.toks, List.append_assoc _ (_ :: _),
        List.cons_append]
    · rw [Cmd.map, Cmd.map_back]
      exact .list n hder hder'
  · rw [if_neg hb]
    refine .pure ⟨w ++ List.replicate n (.op .amp), ⟨h₃, ?_⟩, ?_, hall.back n⟩
    · rw [ht₃]
      exact (hcon.trans hcon₂).toks
    · rw [Cmd.map_back]
      exact .line n hder

theorem parsepipe_sound (hexec : Sound t .exec fuel) (hpipe : Sound t .pipe fuel) :
    Sound t .pipe (fuel + 1) := by
  intro p hp hf
  change 4 * (t.toks p).length + 3 ≤ fuel + 1 at hf
  show Ensures Panics (parsepipe t (fuel + 1)) _ p
  unfold parsepipe
  apply (hexec p hp (by show 4 * (t.toks p).length + 2 ≤ fuel; omega)).bind
  rintro c p₁ ⟨w, hcon, hder, hall⟩
  have hlen := hcon.length_le
  apply ensures_peek hcon.le (by decide)
  intro p₂ h₂ ht₂
  by_cases hb : startsWith (lit "|") (t.toks p₁) = true
  · rw [if_pos hb]
    obtain ⟨ts, hts⟩ := startsWith_pipe.mp hb
    rw [hts, List.length_cons] at hlen
    apply ensures_symbol h₂ (ht₂.trans hts)
    intro s p₃ h₃ ht₃
    apply (hpipe p₃ h₃ (by show 4 * (t.toks p₃).length + 3 ≤ fuel; rw [ht₃]; omega)).bind
    rintro c' p' ⟨w', hcon', hder', hall'⟩
    refine .pure ⟨w ++ .op .pipe :: w', ⟨hcon'.le, ?_⟩, .pipes hder hder', hall, hall'⟩
    rw [hcon.toks, hts, ← ht₃, hcon'.toks, List.append_assoc, List.cons_append]
  · rw [if_neg hb]
    refine .pure ⟨w, ⟨h₂, ?_⟩, .pipe hder, hall⟩
    rw [ht₂]
    exact hcon.toks

/-- `parseblock` is called where there is a parenthesis. -/
def BlockSound (t : Text) (fuel : ℕ) : Prop :=
  ∀ p ≤ t.es, ∀ ts, t.toks p = .op .lparen :: ts → 4 * (t.toks p).length + 1 ≤ fuel →
    Ensures Panics (parseblock t fuel) (fun c p' => ∃ w, Parsed t .exec p c p' w) p

theorem parseblock_sound (hline : Sound t .line fuel) : BlockSound t (fuel + 1) := by
  intro p hp ts hts hf
  have hb : startsWith (lit "(") (t.toks p) = true := startsWith_lparen.mpr ⟨ts, hts⟩
  rw [hts, List.length_cons] at hf
  unfold parseblock
  apply ensures_peek hp (by decide)
  intro p₁ h₁ ht₁
  rw [if_pos hb]
  apply ensures_symbol h₁ (ht₁.trans hts)
  intro s p₂ h₂ ht₂
  apply (hline p₂ h₂ (by show 4 * (t.toks p₂).length + 4 ≤ fuel; rw [ht₂]; omega)).bind
  rintro c p₃ ⟨w, hcon, hder, hall⟩
  have hlen := hcon.length_le
  rw [ht₂] at hlen
  apply ensures_peek hcon.le (by decide)
  intro p₄ h₄ ht₄
  by_cases hb : startsWith (lit ")") (t.toks p₃) = true
  · rw [if_pos hb]
    obtain ⟨ts', hts'⟩ := startsWith_rparen.mp hb
    rw [hts', List.length_cons] at hlen
    apply ensures_symbol h₄ (ht₄.trans hts')
    intro s' p₅ h₅ ht₅
    refine (parseredirs_sound h₅ (by rw [ht₅]; omega) c).mono ?_
    rintro _ p' ⟨w', rs, ⟨hcon', hrs, hwords⟩, rfl⟩
    refine ⟨.op .lparen :: (w ++ .op .rparen :: w'), ⟨hcon'.le, ?_⟩, ?_, ?_⟩
    · rw [hts, ← ht₂, hcon.toks, hts', ← ht₅, hcon'.toks]
      simp
    · rw [Cmd.map_foldl_redir]
      exact .block hder hrs
    · exact hall.foldl_redir hwords
  · rw [if_neg hb]
    exact .throw ⟨_, rfl⟩

theorem parseexec_sound (hblock : BlockSound t fuel) : Sound t .exec (fuel + 1) := by
  intro p hp hf
  change 4 * (t.toks p).length + 2 ≤ fuel + 1 at hf
  show Ensures Panics (parseexec t (fuel + 1)) _ p
  unfold parseexec
  apply ensures_peek hp (by decide)
  intro p₁ h₁ ht₁
  by_cases hb : startsWith (lit "(") (t.toks p) = true
  · rw [if_pos hb]
    obtain ⟨ts, hts⟩ := startsWith_lparen.mp hb
    refine (hblock p₁ h₁ ts (ht₁.trans hts) (by rw [ht₁]; omega)).mono ?_
    rintro c p' ⟨w, ⟨hle, htoks⟩, hder, hall⟩
    exact ⟨w, ⟨hle, by rw [← htoks, ht₁]⟩, hder, hall⟩
  · rw [if_neg hb]
    apply (parseredirs_sound h₁ (by rw [ht₁]; omega) (.exec [])).bind
    rintro _ p₂ ⟨w, rs, ⟨hcon, hrs, hwords⟩, rfl⟩
    have hlen := hcon.length_le
    rw [ht₁] at hlen
    refine (parseargs_sound hcon.le (by omega) [] rs (by decide)).mono ?_
    rintro _ p' ⟨w', argv, rs', ⟨hcon', hargs, hwords₁, hwords₂⟩, hmax, rfl⟩
    rw [List.nil_append] at hmax ⊢
    refine ⟨w ++ w', ⟨hcon'.le, ?_⟩, ?_, ?_⟩
    · rw [← ht₁]
      exact (hcon.trans hcon').toks
    · rw [Cmd.map_foldl_redir, List.map_append]
      apply Derives.simple hrs hargs
      rw [List.length_map]
      exact Nat.le_sub_one_of_lt hmax
    · have hexec : (Cmd.exec argv).All (WordAt t) := hwords₁
      apply hexec.foldl_redir
      rw [List.forall_mem_append]
      exact ⟨hwords, hwords₂⟩

/-- Every parser is sound, by induction on the fuel that all of them share. -/
theorem sound (t : Text) (k : Nonterminal) (fuel : ℕ) : Sound t k fuel := by
  have hall : (∀ k, Sound t k fuel) ∧ BlockSound t fuel := by
    induction fuel with
    | zero =>
      constructor
      · intro k p _ hf
        cases k <;> exact absurd hf (Nat.not_succ_le_zero _)
      · exact fun p _ ts _ hf => absurd hf (Nat.not_succ_le_zero _)
    | succ fuel ih =>
      obtain ⟨ih, ihblock⟩ := ih
      refine ⟨fun k => ?_, parseblock_sound (ih .line)⟩
      cases k with
      | line => exact parseline_sound (ih .pipe) (ih .line)
      | pipe => exact parsepipe_sound (ih .exec) (ih .pipe)
      | exec => exact parseexec_sound ihblock
  exact hall.1 k

end Xv6.Sh
