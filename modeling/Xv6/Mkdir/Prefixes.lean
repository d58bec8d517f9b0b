import Xv6.Mkdir.Descent

/-! The directories that `mkdir -p` makes: a path whose first name is missing. -/
namespace Xv6.Mkdir

variable {mem : ℕ → Bool} {s s' : State} {x : Str}

/-- The tree has changed in the missing prefixes of a path only, which are directories now. -/
structure AddedOnly (t t' : Tree) (d : ℕ) (names : List Str) : Prop where
  used : ∀ a ∈ t.used, a ∈ t'.used ∧ t'.isDir a = t.isDir a ∧ t'.openable a = t.openable a ∧
    t'.parent a = t.parent a
  entry : ∀ a y c, t.entry a y = some c → t'.entry a y = some c
  new_used : ∀ a ∈ t'.used, a ∈ t.used ∨ ∃ before y, before ++ [y] <+: names ∧
    walk t d (before ++ [y]) = none ∧ walk t' d (before ++ [y]) = some a
  new_entry : ∀ a y c, t'.entry a y = some c → t.entry a y = some c ∨ ∃ before,
    before ++ [y] <+: names ∧ walk t d (before ++ [y]) = none ∧ walk t' d before = some a

theorem AddedOnly.refl (t : Tree) (d : ℕ) (names : List Str) : AddedOnly t t d names := by
  constructor
  · exact fun a ha => ⟨ha, rfl, rfl, rfl⟩
  · exact fun a y c h => h
  · exact fun a ha => Or.inl ha
  · exact fun a y c h => Or.inl h

theorem AddedOnly.of_nil {t t' : Tree} {d : ℕ} (h : AddedOnly t t' d []) (d' : ℕ) :
    AddedOnly t t' d' [] := by
  have hnot : ∀ (before : List Str) (y : Str), ¬ before ++ [y] <+: [] := by
    intro before y hpre
    exact List.append_ne_nil_of_right_ne_nil _ (List.cons_ne_nil y []) (List.prefix_nil.mp hpre)
  constructor
  · exact h.used
  · exact h.entry
  · intro a ha
    obtain hold | ⟨before, y, hpre, -⟩ := h.new_used a ha
    · exact Or.inl hold
    · exact absurd hpre (hnot before y)
  · intro a y c hc
    obtain hold | ⟨before, hpre, -⟩ := h.new_entry a y c hc
    · exact Or.inl hold
    · exact absurd hpre (hnot before y)

theorem AddedOnly.addDir {t t' : Tree} {d : ℕ} {names : List Str} (hd : t.isDir d = true)
    (hx : Plain x) (hnone : lookup t d x = none)
    (h : AddedOnly (t.addDir d hd x) t' t.ialloc names) : AddedOnly t t' d (x :: names) := by
  have hgone : ∀ rest, walk t d (x :: rest) = none := by
    intro rest
    rw [walk, hnone]
  have hentry : t'.entry d x = some t.ialloc := h.entry d x _ (if_pos ⟨rfl, rfl⟩)
  have hstep : ∀ rest, walk t' d (x :: rest) = walk t' t.ialloc rest :=
    fun rest => walk_cons ((lookup_plain hx t' d).trans hentry)
  constructor
  · intro a ha
    have hne := t.ne_ialloc ha
    obtain ⟨hused, hdir, hopen, hparent⟩ := h.used a (Finset.mem_insert_of_mem ha)
    rw [hdir, hopen, hparent]
    exact ⟨hused, Function.update_of_ne hne _ _, Function.update_of_ne hne _ _,
      Function.update_of_ne hne _ _⟩
  · intro a y c hold
    apply h.entry a y c
    show (if a = d ∧ y = x then some t.ialloc else t.entry a y) = some c
    rw [if_neg, hold]
    rintro ⟨rfl, rfl⟩
    rw [lookup_plain hx, hold] at hnone
    cases hnone
  · intro a ha
    obtain hold | ⟨before, y, hpre, -, hwalk⟩ := h.new_used a ha
    · obtain rfl | hold := Finset.mem_insert.mp hold
      · refine Or.inr ⟨[], x, ⟨names, rfl⟩, hgone [], ?_⟩
        rw [List.nil_append, hstep]
        rfl
      · exact Or.inl hold
    · refine Or.inr ⟨x :: before, y, List.cons_prefix_cons.mpr ⟨rfl, hpre⟩, hgone _, ?_⟩
      rw [List.cons_append, hstep, hwalk]
  · intro a y c hnew
    obtain hold | ⟨before, hpre, -, hwalk⟩ := h.new_entry a y c hnew
    · replace hold : (if a = d ∧ y = x then some t.ialloc else t.entry a y) = some c := hold
      split_ifs at hold with hc
      · obtain ⟨rfl, rfl⟩ := hc
        exact Or.inr ⟨[], ⟨names, rfl⟩, hgone [], rfl⟩
      · exact Or.inl hold
    · refine Or.inr ⟨x :: before, List.cons_prefix_cons.mpr ⟨rfl, hpre⟩, hgone _, ?_⟩
      rw [hstep, hwalk]

theorem lookup_new (hx : Plain x) (t : Tree) {d : ℕ} (hd : t.isDir d = true) (y : Str) :
    lookup (t.addDir d hd y) t.ialloc x = none := by
  rw [lookup_plain hx]
  show (if t.ialloc = d ∧ x = y then some t.ialloc else t.entry t.ialloc x) = none
  rw [if_neg (fun h => t.ne_ialloc (t.mem_used d hd) h.1.symm)]
  by_contra hne
  obtain ⟨c, hc⟩ := Option.ne_none_iff_exists'.mp hne
  have := (t.entry_isDir _ _ c hc).1
  rw [t.isDir_ialloc] at this
  cases this

theorem descendNames_missing {names : List Str} {n : ℕ} (hplain : ∀ x ∈ names, Plain x)
    (hmem : ∀ i < names.length, mem (n + i) = true) (hroom : names.length ≤ s.room)
    (hfirst : ∀ x ∈ names.head?, lookup s.tree s.cwd x = none) :
    ∃ s', descendNames mem s names n = .ok (s', n + names.length) ∧ s'.ofile = s.ofile ∧
      s'.files = s.files ∧ AddedOnly s.tree s'.tree s.cwd names ∧ AllDirs s'.tree s.cwd names := by
  induction names generalizing s n with
  | nil =>
    refine ⟨s, rfl, rfl, rfl, AddedOnly.refl _ _ _, fun before hb => ?_⟩
    rw [List.prefix_nil.mp hb]
    exact ⟨s.cwd, rfl, s.cwd_isDir⟩
  | cons x names ih =>
    obtain ⟨hx, hrest⟩ := List.forall_mem_cons.mp hplain
    have hnone := hfirst x rfl
    obtain ⟨hm, hmem'⟩ := forall_mem_succ.mp hmem
    have hlen : names.length + 1 ≤ s.room := hroom
    obtain ⟨s₁, henter, htree, hcwd, hofile, hfiles, hroom₁⟩ :=
      enter_missing hx.length_lt hnone (by omega)
    rw [List.take_of_length_le hx.2] at htree
    have hfirst' : ∀ y ∈ names.head?, lookup s₁.tree s₁.cwd y = none := by
      intro y hy
      rw [htree, hcwd]
      exact lookup_new (hrest y (List.mem_of_mem_head? hy)) s.tree s.cwd_isDir x
    obtain ⟨s', hrun, hofile', hfiles', hadded, hall⟩ := ih hrest hmem' (by omega) hfirst'
    rw [hcwd] at hadded hall
    rw [htree] at hadded
    have hadd := AddedOnly.addDir s.cwd_isDir hx hnone hadded
    have hcwd' : s'.tree.isDir s.cwd = true := by
      rw [(hadd.used _ (s.tree.mem_used _ s.cwd_isDir)).2.1, s.cwd_isDir]
    refine ⟨s', ?_, hofile'.trans hofile, hfiles'.trans hfiles, hadd, ?_⟩
    · rw [descendNames, hm, henter]
      simp only
      rw [hrun, List.length_cons, Nat.add_assoc, Nat.add_comm 1]
    · refine (allDirs_cons hcwd').mpr ⟨s.tree.ialloc, ?_, hall⟩
      rw [lookup_plain hx]
      exact hadded.entry _ _ _ (if_pos ⟨rfl, rfl⟩)

end Xv6.Mkdir
