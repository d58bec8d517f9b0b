import Xv6.Mkdir.Names

/-! Where `mkdir_p` leaves the current directory. -/
namespace Xv6.Mkdir

/-- The directories of a tree are still there, with their parents and entries, and what has been added is
new. -/
structure Grows (t t' : Tree) : Prop where
  used : t.used ⊆ t'.used
  entry : ∀ d x c, t.entry d x = some c → t'.entry d x = some c
  added : ∀ d x c, t'.entry d x = some c → t.entry d x = some c ∨ c ∉ t.used
  same : ∀ d ∈ t.used, t'.isDir d = t.isDir d
  parent : ∀ d, t.isDir d = true → t'.parent d = t.parent d
  depth : ∀ d, t.isDir d = true → t'.depth d = t.depth d

theorem Grows.isDir {t t' : Tree} (h : Grows t t') (d : ℕ) (hd : t.isDir d = true) : t'.isDir d = true :=
  (h.same d (t.mem_used d hd)).trans hd

theorem Grows.refl (t : Tree) : Grows t t :=
  ⟨subset_rfl, fun _ _ _ h => h, fun _ _ _ h => Or.inl h, fun _ _ => rfl, fun _ _ => rfl, fun _ _ => rfl⟩

theorem Grows.trans {t t' t'' : Tree} (h : Grows t t') (h' : Grows t' t'') : Grows t t'' where
  used := h.used.trans h'.used
  entry d x c hc := h'.entry d x c (h.entry d x c hc)
  added d x c hc := by
    rcases h'.added d x c hc with hold | hnew
    · exact h.added d x c hold
    · exact Or.inr fun hu => hnew (h.used hu)
  same d hd := (h'.same d (h.used hd)).trans (h.same d hd)
  parent d hd := (h'.parent d (h.isDir d hd)).trans (h.parent d hd)
  depth d hd := (h'.depth d (h.isDir d hd)).trans (h.depth d hd)

theorem Grows.addDir (t : Tree) {d : ℕ} (hd : t.isDir d = true) {x : Str} (hx : t.entry d x = none) :
    Grows t (t.addDir d hd x) := by
  have hne : ∀ a, t.isDir a = true → a ≠ t.ialloc := fun a ha => t.ne_ialloc (t.mem_used a ha)
  constructor
  · exact Finset.subset_insert _ _
  · intro a y c hc
    refine (if_neg ?_).trans hc
    rintro ⟨rfl, rfl⟩
    rw [hx] at hc
    cases hc
  · intro a y c hc
    change (if a = d ∧ y = x then some t.ialloc else t.entry a y) = some c at hc
    split_ifs at hc with h
    · cases hc
      exact Or.inr t.ialloc_not_mem
    · exact Or.inl hc
  · exact fun a ha => Function.update_of_ne (t.ne_ialloc ha) _ _
  · exact fun a ha => Function.update_of_ne (hne a ha) _ _
  · exact fun a ha => Function.update_of_ne (hne a ha) _ _

variable {mem : ℕ → Bool} {s s' : State} {x path : Str}

/-- The names of the directory itself and of its parent. -/
def isDot (x : Str) : Bool := x = lit "." || x = lit ".."

theorem depth_lookup {t : Tree} {d c : ℕ} (hd : t.isDir d = true) (hc : t.isDir c = true)
    (h : lookup t d x = some c) :
    (isDot x = true → t.depth c ≤ t.depth d) ∧
      (isDot x = false → t.parent c = d ∧ t.depth c = t.depth d + 1) := by
  unfold lookup at h
  unfold isDot
  split_ifs at h with h₁ h₂
  · cases h
    simp [h₁]
  · cases h
    have := t.depth_parent d hd
    simp [h₂]
    omega
  · simp only [h₁, h₂, decide_false, Bool.or_self, true_imp_iff]
    exact ⟨fun hf => (by cases hf), t.entry_parent d _ c h hc⟩

theorem isDot_of_lookup_none {t : Tree} {d : ℕ} (h : lookup t d x = none) : isDot x = false := by
  unfold lookup at h
  split_ifs at h with h₁ h₂
  simp [isDot, h₁, h₂]

theorem lookup_of_not_isDot {t : Tree} {d : ℕ} (h : isDot x = false) :
    lookup t d x = t.entry d (x.take dirsiz) := by
  simp only [isDot, Bool.or_eq_false_iff, decide_eq_false_iff_not] at h
  rw [lookup, if_neg h.1, if_neg h.2]

theorem lookup_none {t : Tree} {d : ℕ} (h : lookup t d x = none) : t.entry d (x.take dirsiz) = none :=
  (lookup_of_not_isDot (isDot_of_lookup_none h)).symm.trans h

theorem lookup_used {t : Tree} {d c : ℕ} (hd : t.isDir d = true) (h : lookup t d x = some c) :
    c ∈ t.used := by
  unfold lookup at h
  split_ifs at h
  · cases h
    exact t.mem_used d hd
  · cases h
    exact t.mem_used _ (t.parent_isDir d hd)
  · exact (t.entry_isDir d _ c h).2

theorem openRdonly_spec (h : openRdonly s x = some s') : s'.tree = s.tree ∧ s'.cwd = s.cwd := by
  unfold openRdonly at h
  split at h
  · cases h
  · split_ifs at h
    · split at h
      · cases h
      · cases h
        exact ⟨rfl, rfl⟩

theorem mkdir_spec (h : mkdir s x = some s') : Grows s.tree s'.tree ∧ s'.cwd = s.cwd := by
  unfold mkdir at h
  split_ifs at h with hc
  cases h
  exact ⟨Grows.addDir s.tree s.cwd_isDir (lookup_none hc.2.1), rfl⟩

theorem enter_chdir {s₀ : State} (htree : Grows s₀.tree s.tree) (hcwd : s.cwd = s₀.cwd)
    {r : Except State State}
    (hr : r = match chdir s x with
      | some s => .ok s
      | none => .error s) :
    (∀ s', r = .ok s' → Grows s₀.tree s'.tree ∧ lookup s'.tree s₀.cwd x = some s'.cwd) ∧
      ∀ s', r = .error s' → s'.cwd = s₀.cwd := by
  subst hr
  cases hch : chdir s x with
  | none =>
    refine ⟨fun s' h => (by cases h), ?_⟩
    rintro s' ⟨⟩
    exact hcwd
  | some s₁ =>
    obtain ⟨hl, ht⟩ := chdir_spec hch
    refine ⟨?_, fun s' h => (by cases h)⟩
    rintro s' ⟨⟩
    rw [ht, ← hcwd]
    exact ⟨htree, hl⟩

/-- A name is entered in a tree to which at most that name has been added. A failure leaves the current
directory. -/
theorem enter_spec (m : Bool) (s : State) (x : Str) :
    (∀ s', enter m s x = .ok s' → Grows s.tree s'.tree ∧ lookup s'.tree s.cwd x = some s'.cwd) ∧
      ∀ s', enter m s x = .error s' → s'.cwd = s.cwd := by
  unfold enter
  by_cases hm : m = false
  · rw [if_pos hm]
    refine ⟨fun s' h => (by cases h), ?_⟩
    rintro s' ⟨⟩
    rfl
  · rw [if_neg hm]
    cases hopen : openRdonly s x with
    | some s₁ =>
      obtain ⟨htree, hcwd⟩ := openRdonly_spec hopen
      exact enter_chdir (htree ▸ Grows.refl s.tree) hcwd rfl
    | none =>
      cases hmk : mkdir s x with
      | none =>
        refine ⟨fun s' h => (by cases h), ?_⟩
        rintro s' ⟨⟩
        rfl
      | some s₁ =>
        obtain ⟨htree, hcwd⟩ := mkdir_spec hmk
        exact enter_chdir htree hcwd rfl

theorem descendNames_ok {names : List Str} {n n' : ℕ}
    (h : descendNames mem s names n = .ok (s', n')) :
    n' = n + names.length ∧ Grows s.tree s'.tree ∧
      s'.tree.depth s'.cwd ≤ s.tree.depth s.cwd + names.countP (fun x => !isDot x) ∧
      ((∀ x ∈ names, isDot x = false) → s'.tree.parent^[names.length] s'.cwd = s.cwd) := by
  induction names generalizing s n with
  | nil =>
    cases h
    exact ⟨rfl, Grows.refl _, le_rfl, fun _ => rfl⟩
  | cons x names ih =>
    obtain ⟨s₁, henter, hrun⟩ := descendNames_cons_ok.mp h
    obtain ⟨hgrow, hlook⟩ := (enter_spec (mem n) s x).1 s₁ henter
    obtain ⟨hn, hgrow', hdepth, hparent⟩ := ih hrun
    have hold := hgrow.depth _ s.cwd_isDir
    have hdot := depth_lookup (hgrow.isDir _ s.cwd_isDir) s₁.cwd_isDir hlook
    refine ⟨by rw [hn, List.length_cons]; omega, hgrow.trans hgrow', ?_, ?_⟩
    · rw [List.countP_cons]
      cases hx : isDot x with
      | true =>
        have := hdot.1 hx
        simp only [Bool.not_true, Bool.false_eq_true, if_false]
        omega
      | false =>
        have := hdot.2 hx
        simp only [Bool.not_false, if_true]
        omega
    · intro hall
      obtain ⟨hx, hrest⟩ := List.forall_mem_cons.mp hall
      rw [List.length_cons, Function.iterate_succ_apply', hparent hrest,
        hgrow'.parent _ s₁.cwd_isDir]
      exact (hdot.2 hx).1

/-- A directory of the tree, and below it names that the tree does not have, the last one first. -/
abbrev Place := ℕ × List Str

def Place.enter (t : Tree) : Place → Str → Place
  | (d, []), x =>
    match lookup t d x with
    | some c => (c, [])
    | none => (d, [x])
  | (d, y :: ys), x =>
    if x = lit "." then (d, y :: ys) else if x = lit ".." then (d, ys) else (d, x :: y :: ys)

/-- The directory `c` of the tree `t'` is the place: one of `t`, or a new one. -/
def At (t t' : Tree) (d : ℕ) : List Str → ℕ → Prop
  | [], c => c = d ∧ t.isDir d = true
  | _ :: ys, c => t.isDir c = false ∧ t'.isDir c = true ∧ At t t' d ys (t'.parent c)

theorem At.eq_iff {t t' : Tree} {d c a : ℕ} {ys : List Str} (h : At t t' d ys c) (ha : t.isDir a = true) :
    c = a ↔ (d, ys) = ((a, []) : Place) := by
  cases ys with
  | nil => simp [h.1]
  | cons y ys =>
    have hne : c ≠ a := by
      rintro rfl
      exact Bool.false_ne_true (h.1.symm.trans ha)
    simp [hne]

theorem lookup_grows {t t' : Tree} (hg : Grows t t') {d c : ℕ} (hd : t.isDir d = true)
    (h : lookup t d x = some c) : lookup t' d x = some c := by
  unfold lookup at h ⊢
  split_ifs at h ⊢
  · exact h
  · rw [hg.parent d hd]
    exact h
  · exact hg.entry _ _ _ h

theorem At.enter {t t' : Tree} (hg : Grows t t') {d c c' : ℕ} {ys : List Str} (h : At t t' d ys c)
    (hc : t'.isDir c = true) (hc' : t'.isDir c' = true) (hl : lookup t' c x = some c') :
    At t t' (Place.enter t (d, ys) x).1 (Place.enter t (d, ys) x).2 c' := by
  cases ys with
  | nil =>
    obtain ⟨rfl, hd⟩ := h
    cases hold : lookup t c x with
    | some a =>
      obtain rfl : a = c' := Option.some.inj ((lookup_grows hg hd hold).symm.trans hl)
      simp only [Place.enter, hold]
      refine ⟨rfl, ?_⟩
      rw [← hg.same a (lookup_used hd hold)]
      exact hc'
    | none =>
      have hdot : isDot x = false := isDot_of_lookup_none hold
      have hentry := hg.added c _ c' ((lookup_of_not_isDot hdot).symm.trans hl)
      rw [lookup_none hold] at hentry
      have hnew := hentry.resolve_left (fun hn => by cases hn)
      simp only [Place.enter, hold]
      refine ⟨?_, hc', ((depth_lookup hc hc' hl).2 hdot).1, hd⟩
      exact Bool.eq_false_iff.mpr fun hdir => hnew (t.mem_used c' hdir)
  | cons y ys =>
    simp only [Place.enter]
    split_ifs with h₁ h₂
    · rw [lookup, if_pos h₁] at hl
      cases hl
      exact h
    · rw [lookup, if_neg h₁, if_pos h₂] at hl
      cases hl
      exact h.2.2
    · have hparent := ((depth_lookup hc hc' hl).2 (by simp [isDot, h₁, h₂])).1
      refine ⟨Bool.eq_false_iff.mpr fun hdir => ?_, hc', ?_⟩
      · -- the parent of a directory of `t` is one of `t`
        have hp := t.parent_isDir c' hdir
        rw [← hg.parent c' hdir, hparent, h.1] at hp
        cases hp
      · rw [hparent]
        exact h

theorem enter_missing (hlen : x.length < maxPath) (hl : lookup s.tree s.cwd x = none)
    (hroom : 0 < s.room) :
    ∃ s', enter true s x = .ok s' ∧ s'.tree = s.tree.addDir s.cwd s.cwd_isDir (x.take dirsiz) ∧
      s'.cwd = s.tree.ialloc ∧ s'.ofile = s.ofile ∧ s'.files = s.files ∧ s'.room + 1 = s.room := by
  have hopen : openRdonly s x = none := by
    rw [openRdonly, namei, if_pos hlen, hl]
  obtain ⟨s₁, hs₁⟩ : ∃ s₁, mkdir s x = some s₁ ∧
      s₁.tree = s.tree.addDir s.cwd s.cwd_isDir (x.take dirsiz) ∧
      s₁.cwd = s.cwd ∧ s₁.ofile = s.ofile ∧ s₁.files = s.files ∧ s₁.room + 1 = s.room :=
    ⟨_, if_pos ⟨hlen, hl, hroom⟩, rfl, rfl, rfl, rfl, Nat.sub_add_cancel hroom⟩
  obtain ⟨hmk, htree, hcwd, hofile, hfiles, hroom'⟩ := hs₁
  have hdir : s₁.tree.isDir s.tree.ialloc = true := by
    rw [htree]
    exact Function.update_self _ _ _
  have hname : namei s₁ x = some s.tree.ialloc := by
    rw [namei, if_pos hlen, lookup_of_not_isDot (isDot_of_lookup_none hl), htree, hcwd]
    exact if_pos ⟨rfl, rfl⟩
  have hch : chdir s₁ x = some { s₁ with cwd := s.tree.ialloc, cwd_isDir := hdir } := by
    rw [chdir, hname]
    simp only [dif_pos hdir]
  refine ⟨{ s₁ with cwd := s.tree.ialloc, cwd_isDir := hdir }, ?_, htree, rfl, hofile, hfiles,
    hroom'⟩
  rw [enter, if_neg (by decide), hopen]
  simp only [hmk, hch]

def oneDir : Tree where
  used := {1, 2}
  isDir d := d = 1 || d = 2
  openable d := d = 1 || d = 2
  entry d x := if d = 1 ∧ x = lit "a" then some 2 else none
  parent _ := 1
  depth d := if d = 2 then 1 else 0
  root_isDir := rfl
  parent_isDir := fun _ _ => rfl
  mem_used := by simp
  dir_openable := fun _ h => h
  entry_isDir := by
    intro d x c h
    split_ifs at h with hd
    cases h
    simp [hd.1]
  depth_eq_zero := by
    intro d hd
    simp only [Bool.or_eq_true, decide_eq_true_eq] at hd
    split_ifs <;> simp [rootIno] <;> omega
  depth_parent := by
    intro d hd
    simp only [Bool.or_eq_true, decide_eq_true_eq] at hd
    split_ifs <;> omega
  entry_parent := by
    intro d x c h _
    split_ifs at h with hd
    cases h
    simp [hd.1]

end Xv6.Mkdir
