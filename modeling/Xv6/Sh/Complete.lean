import Xv6.Sh.Sound

/-! The parser accepts what is derivable. -/
namespace Xv6.Sh

open Lib

variable {α : Type} {t : Text} {p n fuel : ℕ} {w ts rest : List Token}

section Steps

/-- The computation ends at a place before `rest` with a result that satisfies `Q`. -/
def Reaches (t : Text) (x : Parser α) (p : ℕ) (rest : List Token) (Q : α → Prop) : Prop :=
  ∃ a p', Gives x p a p' ∧ p' ≤ t.es ∧ t.toks p' = rest ∧ Q a

variable {β : Type} {Q : α → Prop} {R : β → Prop} {x : Parser α} {k : α → Parser β}
  {rest' : List Token}

theorem Reaches.bind (h : Reaches t x p rest Q)
    (hk : ∀ a p', p' ≤ t.es → t.toks p' = rest → Q a → Reaches t (k a) p' rest' R) :
    Reaches t (x >>= k) p rest' R := by
  obtain ⟨a, p', hx, hle, htoks, ha⟩ := h
  obtain ⟨b, p'', hb, h'⟩ := hk a p' hle htoks ha
  exact ⟨b, p'', hx.bind hb, h'⟩

theorem Reaches.mono {Q' : α → Prop} (h : Reaches t x p rest Q) (hQ : ∀ a, Q a → Q' a) :
    Reaches t x p rest Q' := by
  obtain ⟨a, p', hx, hle, htoks, ha⟩ := h
  exact ⟨a, p', hx, hle, htoks, hQ a ha⟩

theorem Reaches.pure {a : α} (hp : p ≤ t.es) (ht : t.toks p = rest) (h : Q a) :
    Reaches t (pure a) p rest Q := ⟨a, p, .pure, hp, ht, h⟩

theorem reaches_peek {cs : Str} {k : Bool → Parser β} (hp : p ≤ t.es) (hcs : cs ⊆ symbols)
    {b : Bool} (hb : startsWith cs (t.toks p) = b)
    (h : ∀ p', p' ≤ t.es → t.toks p' = t.toks p → Reaches t (k b) p' rest R) :
    Reaches t (peek t cs >>= k) p rest R := by
  obtain ⟨p', hgives, hle, htoks, -⟩ := peek_spec hp hcs
  rw [hb] at hgives
  obtain ⟨a, p'', ha, h'⟩ := h p' hle htoks
  exact ⟨a, p'', hgives.bind ha, h'⟩

theorem reaches_symbol {o : Op} {k : Ret × Span → Parser β} (hp : p ≤ t.es)
    (ht : t.toks p = .op o :: ts)
    (h : ∀ s p', p' ≤ t.es → t.toks p' = ts → Reaches t (k (.op o, s)) p' rest R) :
    Reaches t (gettoken t >>= k) p rest R := by
  obtain ⟨r, s, p', hgives, hle, hread⟩ := gettoken_spec hp
  rw [ht] at hread
  obtain ⟨rfl, htoks⟩ := hread.of_op
  obtain ⟨a, p'', ha, h'⟩ := h s p' hle htoks
  exact ⟨a, p'', hgives.bind ha, h'⟩

theorem reaches_word {a : Str} {k : Ret × Span → Parser β} (hp : p ≤ t.es)
    (ht : t.toks p = .word a :: ts)
    (h : ∀ s p', p' ≤ t.es → t.toks p' = ts → t.text s = a → Reaches t (k (.a, s)) p' rest R) :
    Reaches t (gettoken t >>= k) p rest R := by
  obtain ⟨r, s, p', hgives, hle, hread⟩ := gettoken_spec hp
  rw [ht] at hread
  generalize htoks : t.toks p' = ts' at hread
  cases hread
  obtain ⟨b, p'', hb, h'⟩ := h s p' hle htoks rfl
  exact ⟨b, p'', hgives.bind hb, h'⟩

theorem reaches_nul {k : Ret × Span → Parser β} (hp : p ≤ t.es) (ht : t.toks p = [])
    (h : ∀ s p', p' ≤ t.es → t.toks p' = [] → Reaches t (k (.nul, s)) p' rest R) :
    Reaches t (gettoken t >>= k) p rest R := by
  obtain ⟨r, s, p', hgives, hle, hread⟩ := gettoken_spec hp
  rw [ht] at hread
  generalize htoks : t.toks p' = ts' at hread
  cases hread
  obtain ⟨b, p'', hb, h'⟩ := h s p' hle htoks
  exact ⟨b, p'', hgives.bind hb, h'⟩

end Steps

/-- The symbols that may come after a command of the kind. -/
def Nonterminal.follow : Nonterminal → List Op
  | line => [.rparen]
  | pipe => [.rparen, .amp, .semi]
  | exec => [.rparen, .amp, .semi, .pipe]

/-- A command of the kind may end before `rest`. -/
def Follows (k : Nonterminal) (rest : List Token) : Prop :=
  rest = [] ∨ ∃ o ts, rest = .op o :: ts ∧ o ∈ k.follow

theorem Follows.startsWith {k : Nonterminal} {cs : Str} (h : Follows k rest)
    (hcs : ∀ o ∈ k.follow, o.char ∉ cs) : startsWith cs rest = false := by
  obtain rfl | ⟨o, ts, rfl, ho⟩ := h
  · rfl
  · exact decide_eq_false (hcs o ho)

theorem parseredirs_complete {rs : List (Redir Str)} (h : Redirs w rs) (hp : p ≤ t.es)
    (ht : t.toks p = w ++ rest) (hrest : startsWith (lit "<>") rest = false)
    (hf : (t.toks p).length < fuel) (c : Cmd Span) :
    Reaches t (parseredirs t fuel c) p rest
      (fun c' => c'.map t.text = rs.foldl .redir (c.map t.text)) := by
  induction h generalizing p fuel c with
  | nil =>
    obtain ⟨fuel, rfl⟩ := Nat.exists_eq_succ_of_ne_zero (Nat.ne_zero_of_lt hf)
    unfold parseredirs
    apply reaches_peek hp (by decide) (b := false)
    · rw [ht]
      exact hrest
    · intro p' hp' ht'
      exact .pure hp' (ht'.trans ht) rfl
  | @cons o file r w rs hr _ ih =>
    obtain ⟨fuel, rfl⟩ := Nat.exists_eq_succ_of_ne_zero (Nat.ne_zero_of_lt hf)
    have hchar : o.char ∈ lit "<>" := by
      cases o with
      | lt | gt | gtgt => decide
      | _ => cases hr
    unfold parseredirs
    apply reaches_peek hp (by decide) (b := true)
    · rw [ht]
      exact decide_eq_true hchar
    · intro p₁ h₁ ht₁
      rw [if_pos rfl]
      apply reaches_symbol h₁ (ht₁.trans ht)
      intro s₁ p₂ h₂ ht₂
      apply reaches_word h₂ ht₂
      rintro s₂ p₃ h₃ ht₃ rfl
      have hlen : (t.toks p₃).length < fuel := by
        rw [ht] at hf
        rw [ht₃]
        exact Nat.lt_of_succ_lt (Nat.lt_of_succ_lt_succ hf)
      have hred : ((Ret.op o).redirect s₂ c).map t.text = (c.map t.text).redir r := by
        rw [Op.redir_map] at hr
        obtain ⟨r', hr', rfl⟩ := Option.map_eq_some_iff.mp hr
        rw [Ret.redirect, hr']
        rfl
      refine (ih h₃ ht₃ hlen _).mono fun c' hc' => ?_
      rw [hc', hred]
      rfl

theorem Redirs.no_lparen {rs : List (Redir Str)} (h : Redirs w rs)
    (hrest : startsWith (lit "(") rest = false) : startsWith (lit "(") (w ++ rest) = false := by
  cases h with
  | nil => exact hrest
  | @cons o _ _ _ _ h =>
    cases o with
    | lt | gt | gtgt => rfl
    | _ => cases h

theorem Args.no_lparen {argv : List Str} {rs : List (Redir Str)} (h : Args w argv rs)
    (hrest : startsWith (lit "(") rest = false) : startsWith (lit "(") (w ++ rest) = false := by
  cases h with
  | nil => exact hrest
  | cons => rfl

theorem Args.startsWith {argv : List Str} {rs : List (Redir Str)} (h : Args w argv rs)
    (hrest : Follows .exec rest) : startsWith (lit "<>") (w ++ rest) = false := by
  cases h with
  | nil => exact hrest.startsWith (by decide)
  | cons => rfl

theorem exec_follow_char : ∀ o ∈ Nonterminal.exec.follow, o.char ∈ lit "|)&;" := by decide

theorem parseargs_complete {argv : List Str} {rs : List (Redir Str)} (h : Args w argv rs)
    (hp : p ≤ t.es) (ht : t.toks p = w ++ rest) (hrest : Follows .exec rest)
    (hf : (t.toks p).length < fuel) {argc : ℕ} (hmax : argc + argv.length < maxArgs)
    {c : Cmd Span} {argv₀ : List Str} {rs₀ : List (Redir Str)}
    (hc : c.map t.text = rs₀.foldl .redir (.exec argv₀)) :
    Reaches t (parseargs t fuel argc c) p rest
      (fun c' => c'.map t.text = (rs₀ ++ rs).foldl .redir (.exec (argv₀ ++ argv))) := by
  induction h generalizing p fuel argc c argv₀ rs₀ with
  | nil =>
    obtain ⟨fuel, rfl⟩ := Nat.exists_eq_succ_of_ne_zero (Nat.ne_zero_of_lt hf)
    have hc' : c.map t.text = (rs₀ ++ []).foldl .redir (.exec (argv₀ ++ [])) := by
      rw [List.append_nil, List.append_nil]
      exact hc
    unfold parseargs
    apply reaches_peek hp (by decide) rfl
    intro p₁ h₁ ht₁
    rw [List.nil_append] at ht
    obtain rfl | ⟨o, ts, rfl, ho⟩ := hrest
    · rw [if_neg (by rw [ht]; decide)]
      apply reaches_nul h₁ (ht₁.trans ht)
      intro s p₂ h₂ ht₂
      exact .pure h₂ ht₂ hc'
    · rw [if_pos]
      · exact .pure h₁ (ht₁.trans ht) hc'
      · rw [ht, startsWith_iff]
        exact ⟨o, ts, rfl, exec_follow_char o ho⟩
  | @cons a w w' argv rs rs' hr hargs ih =>
    obtain ⟨fuel, rfl⟩ := Nat.exists_eq_succ_of_ne_zero (Nat.ne_zero_of_lt hf)
    rw [List.cons_append, List.append_assoc] at ht
    rw [List.length_cons] at hmax
    unfold parseargs
    apply reaches_peek hp (by decide) (b := false)
    · rw [ht]
      rfl
    · intro p₁ h₁ ht₁
      apply reaches_word h₁ (ht₁.trans ht)
      rintro s p₂ h₂ ht₂ rfl
      have hlen : (t.toks p₂).length < fuel := by
        rw [ht] at hf
        rw [ht₂]
        exact Nat.lt_of_succ_lt_succ hf
      dsimp only
      rw [if_neg (by decide), if_neg (by decide), if_neg (by omega)]
      apply (parseredirs_complete hr h₂ ht₂ (hargs.startsWith hrest) hlen _).bind
      intro c' p₃ h₃ ht₃ hc'
      have hlen₃ : (t.toks p₃).length < fuel := by
        rw [ht₂, List.length_append] at hlen
        rw [ht₃]
        omega
      rw [Cmd.map_addArg, hc, Cmd.addArg_foldl_redir, ← List.foldl_append] at hc'
      refine (ih h₃ ht₃ hlen₃ (show argc + 1 + argv.length < maxArgs by omega) hc').mono ?_
      intro c'' hc''
      rw [hc'', List.append_assoc rs₀, List.append_assoc argv₀, List.singleton_append]

theorem parsebacks_complete (n : ℕ) (hp : p ≤ t.es)
    (ht : t.toks p = List.replicate n (.op .amp) ++ rest) (hrest : startsWith (lit "&") rest = false)
    (hf : (t.toks p).length < fuel) (c : Cmd Span) :
    Reaches t (parsebacks t fuel c) p rest (fun c' => c' = Cmd.back^[n] c) := by
  induction n generalizing p fuel c with
  | zero =>
    obtain ⟨fuel, rfl⟩ := Nat.exists_eq_succ_of_ne_zero (Nat.ne_zero_of_lt hf)
    unfold parsebacks
    apply reaches_peek hp (by decide) (b := false)
    · rw [ht]
      exact hrest
    · intro p' hp' ht'
      exact .pure hp' (ht'.trans ht) rfl
  | succ n ih =>
    obtain ⟨fuel, rfl⟩ := Nat.exists_eq_succ_of_ne_zero (Nat.ne_zero_of_lt hf)
    rw [List.replicate_succ, List.cons_append] at ht
    unfold parsebacks
    apply reaches_peek hp (by decide) (b := true)
    · rw [ht]
      rfl
    · intro p₁ h₁ ht₁
      rw [if_pos rfl]
      apply reaches_symbol h₁ (ht₁.trans ht)
      intro s p₂ h₂ ht₂
      apply ih h₂ ht₂
      rw [ht] at hf
      rw [ht₂]
      exact Nat.lt_of_succ_lt_succ hf

/-- The parser of a nonterminal accepts `w` before `rest` with the tree `c`. -/
def Accepts (t : Text) (k : Nonterminal) (w : List Token) (c : Cmd Str) : Prop :=
  ∀ p rest fuel, p ≤ t.es → t.toks p = w ++ rest → Follows k rest →
    k.calls (t.toks p).length ≤ fuel → Reaches t (k.parse t fuel) p rest (fun c' => c'.map t.text = c)

theorem Follows.mono {k k' : Nonterminal} (h : Follows k rest) (hk : k.follow ⊆ k'.follow) :
    Follows k' rest := by
  obtain rfl | ⟨o, ts, rfl, ho⟩ := h
  · exact Or.inl rfl
  · exact Or.inr ⟨o, ts, rfl, hk ho⟩

theorem follows_op {k : Nonterminal} {o : Op} (h : o ∈ k.follow) : Follows k (.op o :: ts) :=
  Or.inr ⟨o, ts, rfl, h⟩

theorem Follows.backs (h : Follows .pipe rest) (n : ℕ) :
    Follows .pipe (List.replicate n (.op .amp) ++ rest) := by
  cases n with
  | zero => exact h
  | succ n => exact follows_op (by decide)

section Productions

variable {c c' : Cmd Str} {w' : List Token}

theorem reaches_pipe_backs (n : ℕ) (h : Accepts t .pipe w c) (hp : p ≤ t.es)
    (ht : t.toks p = w ++ (List.replicate n (.op .amp) ++ rest)) (hrest : Follows .pipe rest)
    (hamp : startsWith (lit "&") rest = false) (hf : 4 * (t.toks p).length + 3 ≤ fuel)
    {Q : Cmd Span → Prop} {k : Cmd Span → Parser (Cmd Span)} {rest' : List Token}
    (hk : ∀ d p', p' ≤ t.es → t.toks p' = rest → d.map t.text = Cmd.back^[n] c →
      Reaches t (k d) p' rest' Q) :
    Reaches t (parsepipe t fuel >>= fun cmd => parsebacks t fuel cmd >>= k) p rest' Q := by
  apply (h p _ fuel hp ht (hrest.backs n) hf).bind
  intro d p₁ h₁ ht₁ hd
  have hlen : (t.toks p₁).length < fuel := by
    rw [ht, List.length_append] at hf
    rw [ht₁]
    omega
  apply (parsebacks_complete n h₁ ht₁ hamp hlen d).bind
  rintro _ p₂ h₂ ht₂ rfl
  apply hk _ p₂ h₂ ht₂
  rw [Cmd.map_back, hd]

theorem accepts_line (n : ℕ) (h : Accepts t .pipe w c) :
    Accepts t .line (w ++ List.replicate n (.op .amp)) (Cmd.back^[n] c) := by
  intro p rest fuel hp ht hrest hf
  change 4 * (t.toks p).length + 4 ≤ fuel at hf
  obtain ⟨fuel, rfl⟩ := Nat.exists_eq_add_one_of_ne_zero (show fuel ≠ 0 by omega)
  rw [List.append_assoc] at ht
  show Reaches t (parseline t (fuel + 1)) p rest _
  unfold parseline
  apply reaches_pipe_backs n h hp ht (hrest.mono (by decide)) (hrest.startsWith (by decide)) (by omega)
  intro d p₁ h₁ ht₁ hd
  apply reaches_peek h₁ (by decide) (b := false)
  · rw [ht₁]
    exact hrest.startsWith (by decide)
  · intro p₂ h₂ ht₂
    exact .pure h₂ (ht₂.trans ht₁) hd

theorem accepts_list (n : ℕ) (h : Accepts t .pipe w c) (h' : Accepts t .line w' c') :
    Accepts t .line (w ++ List.replicate n (.op .amp) ++ .op .semi :: w')
      (.list (Cmd.back^[n] c) c') := by
  intro p rest fuel hp ht hrest hf
  change 4 * (t.toks p).length + 4 ≤ fuel at hf
  obtain ⟨fuel, rfl⟩ := Nat.exists_eq_add_one_of_ne_zero (show fuel ≠ 0 by omega)
  rw [List.append_assoc, List.append_assoc, List.cons_append] at ht
  show Reaches t (parseline t (fuel + 1)) p rest _
  unfold parseline
  apply reaches_pipe_backs n h hp ht (follows_op (by decide)) rfl (by omega)
  intro d p₁ h₁ ht₁ hd
  apply reaches_peek h₁ (by decide) (b := true)
  · rw [ht₁]
    rfl
  · intro p₂ h₂ ht₂
    rw [if_pos rfl]
    apply reaches_symbol h₂ (ht₂.trans ht₁)
    intro s p₃ h₃ ht₃
    have hlen : 4 * (t.toks p₃).length + 4 ≤ fuel := by
      simp only [ht, List.length_append, List.length_cons] at hf
      rw [ht₃, List.length_append]
      omega
    apply (h' p₃ rest fuel h₃ ht₃ hrest hlen).bind
    intro d' p' hp' ht' hd'
    refine .pure hp' ht' ?_
    rw [Cmd.map, hd, hd']

theorem accepts_pipe (h : Accepts t .exec w c) : Accepts t .pipe w c := by
  intro p rest fuel hp ht hrest hf
  change 4 * (t.toks p).length + 3 ≤ fuel at hf
  obtain ⟨fuel, rfl⟩ := Nat.exists_eq_add_one_of_ne_zero (show fuel ≠ 0 by omega)
  have hcalls : 4 * (t.toks p).length + 2 ≤ fuel := by omega
  show Reaches t (parsepipe t (fuel + 1)) p rest _
  unfold parsepipe
  apply (h p rest fuel hp ht (hrest.mono (by decide)) hcalls).bind
  intro d p₁ h₁ ht₁ hd
  apply reaches_peek h₁ (by decide) (b := false)
  · rw [ht₁]
    exact hrest.startsWith (by decide)
  · intro p₂ h₂ ht₂
    exact .pure h₂ (ht₂.trans ht₁) hd

theorem accepts_pipes (h : Accepts t .exec w c) (h' : Accepts t .pipe w' c') :
    Accepts t .pipe (w ++ .op .pipe :: w') (.pipe c c') := by
  intro p rest fuel hp ht hrest hf
  change 4 * (t.toks p).length + 3 ≤ fuel at hf
  obtain ⟨fuel, rfl⟩ := Nat.exists_eq_add_one_of_ne_zero (show fuel ≠ 0 by omega)
  have hcalls : 4 * (t.toks p).length + 2 ≤ fuel := by omega
  rw [List.append_assoc, List.cons_append] at ht
  show Reaches t (parsepipe t (fuel + 1)) p rest _
  unfold parsepipe
  apply (h p _ fuel hp ht (follows_op (by decide)) hcalls).bind
  intro d p₁ h₁ ht₁ hd
  apply reaches_peek h₁ (by decide) (b := true)
  · rw [ht₁]
    rfl
  · intro p₂ h₂ ht₂
    rw [if_pos rfl]
    apply reaches_symbol h₂ (ht₂.trans ht₁)
    intro s p₃ h₃ ht₃
    have hlen : 4 * (t.toks p₃).length + 3 ≤ fuel := by
      simp only [ht, List.length_append, List.length_cons] at hf
      rw [ht₃, List.length_append]
      omega
    apply (h' p₃ rest fuel h₃ ht₃ hrest hlen).bind
    intro d' p' hp' ht' hd'
    refine .pure hp' ht' ?_
    rw [Cmd.map, hd, hd']

theorem accepts_block {rs : List (Redir Str)} (h : Accepts t .line w c) (h' : Redirs w' rs) :
    Accepts t .exec (.op .lparen :: (w ++ .op .rparen :: w')) (rs.foldl .redir c) := by
  intro p rest fuel hp ht hrest hf
  rw [List.cons_append, List.append_assoc, List.cons_append] at ht
  change 4 * (t.toks p).length + 2 ≤ fuel at hf
  simp only [ht, List.length_append, List.length_cons] at hf
  obtain ⟨fuel, rfl⟩ := Nat.exists_eq_add_of_le' (show 2 ≤ fuel by omega)
  have hlparen : startsWith (lit "(") (t.toks p) = true := by
    rw [ht]
    rfl
  show Reaches t (parseexec t (fuel + 1 + 1)) p rest _
  unfold parseexec
  apply reaches_peek hp (by decide) hlparen
  intro p₁ h₁ ht₁
  rw [if_pos rfl]
  unfold parseblock
  apply reaches_peek h₁ (by decide) (ht₁ ▸ hlparen)
  intro p₂ h₂ ht₂
  rw [if_pos rfl]
  apply reaches_symbol h₂ (ht₂.trans (ht₁.trans ht))
  intro s p₃ h₃ ht₃
  have hlen : 4 * (t.toks p₃).length + 4 ≤ fuel := by
    simp only [ht₃, List.length_append, List.length_cons]
    omega
  apply (h p₃ _ fuel h₃ ht₃ (follows_op (by decide)) hlen).bind
  intro d p₄ h₄ ht₄ hd
  apply reaches_peek h₄ (by decide) (b := true)
  · rw [ht₄]
    rfl
  · intro p₅ h₅ ht₅
    rw [if_pos rfl]
    apply reaches_symbol h₅ (ht₅.trans ht₄)
    intro s' p₆ h₆ ht₆
    have hlen : (t.toks p₆).length < fuel := by
      rw [ht₆, List.length_append]
      omega
    rw [← hd]
    exact parseredirs_complete h' h₆ ht₆ (hrest.startsWith (by decide)) hlen d

theorem accepts_simple {argv : List Str} {rs rs' : List (Redir Str)} (h : Redirs w rs)
    (h' : Args w' argv rs') (hmax : argv.length ≤ maxArgs - 1) :
    Accepts t .exec (w ++ w') ((rs ++ rs').foldl .redir (.exec argv)) := by
  intro p rest fuel hp ht hrest hf
  change 4 * (t.toks p).length + 2 ≤ fuel at hf
  obtain ⟨fuel, rfl⟩ := Nat.exists_eq_add_one_of_ne_zero (show fuel ≠ 0 by omega)
  rw [List.append_assoc] at ht
  have hlparen : startsWith (lit "(") (t.toks p) = false := by
    rw [ht]
    exact h.no_lparen (h'.no_lparen (hrest.startsWith (by decide)))
  show Reaches t (parseexec t (fuel + 1)) p rest _
  unfold parseexec
  apply reaches_peek hp (by decide) hlparen
  intro p₁ h₁ ht₁
  have hlen : (t.toks p₁).length < fuel := by
    rw [ht₁]
    omega
  apply (parseredirs_complete h h₁ (ht₁.trans ht) (h'.startsWith hrest) hlen (.exec [])).bind
  intro d p₂ h₂ ht₂ hd
  have hlen₂ : (t.toks p₂).length < fuel := by
    rw [ht₁, ht, List.length_append] at hlen
    rw [ht₂]
    omega
  have hargc : 0 + argv.length < maxArgs := by
    rw [Nat.zero_add]
    exact Nat.lt_of_le_sub_one (by decide) hmax
  exact parseargs_complete h' h₂ ht₂ hrest hlen₂ hargc hd

end Productions

/-- By induction on the derivation: what is derivable is accepted, with the tree that it stands for. -/
theorem Derives.accepts {k : Nonterminal} {c : Cmd Str} (h : Derives k w c) : Accepts t k w c := by
  induction h with
  | line n _ ih => exact accepts_line n ih
  | list n _ _ ih ih' => exact accepts_list n ih ih'
  | pipe _ ih => exact accepts_pipe ih
  | pipes _ _ ih ih' => exact accepts_pipes ih ih'
  | block _ h' ih => exact accepts_block ih h'
  | simple h h' hmax => exact accepts_simple h h' hmax

end Xv6.Sh
