import Xv6.Mkdir.WorkingDir

/-! What one descent along a path takes from the tables of the process. -/
namespace Xv6.Mkdir

variable {mem : ℕ → Bool} {s s' : State} {x : Str}

def freeFds (ofile : Finset ℕ) : ℕ := (Finset.range nofile \ ofile).card

theorem fdalloc_mem {ofile : Finset ℕ} {fd : ℕ} (h : fdalloc ofile = some fd) :
    fd ∈ Finset.range nofile \ ofile := by
  have hfree := List.find?_some h
  have hmem := List.mem_of_find?_eq_some h
  rw [Finset.mem_sdiff, Finset.mem_range]
  exact ⟨List.mem_range.mp hmem, by simpa using hfree⟩

theorem freeFds_insert {ofile : Finset ℕ} {fd : ℕ} (h : fdalloc ofile = some fd) :
    freeFds (insert fd ofile) + 1 = freeFds ofile := by
  rw [freeFds, Finset.sdiff_insert, Finset.card_erase_add_one (fdalloc_mem h), freeFds]

theorem fdalloc_eq_none {ofile : Finset ℕ} : fdalloc ofile = none ↔ freeFds ofile = 0 := by
  rw [fdalloc, List.find?_eq_none, freeFds, Finset.card_eq_zero, Finset.sdiff_eq_empty_iff_subset]
  simp [Finset.subset_iff]

theorem openRdonly_takes (h : openRdonly s x = some s') :
    lookup s.tree s.cwd x ≠ none ∧ s'.room = s.room ∧ 0 < s.files ∧
      ∃ fd, fdalloc s.ofile = some fd ∧ s'.ofile = insert fd s.ofile ∧ s'.files = s.files - 1 := by
  unfold openRdonly namei at h
  split at h
  · cases h
  · next ip hip =>
    split_ifs at hip with hlen
    split_ifs at h with hc
    split at h
    · cases h
    · next fd hfd =>
      cases h
      exact ⟨by rw [hip]; exact Option.some_ne_none ip, rfl, hc.2, fd, hfd, rfl, rfl⟩

theorem mkdir_takes (h : mkdir s x = some s') :
    lookup s.tree s.cwd x = none ∧ s'.ofile = s.ofile ∧ s'.room + 1 = s.room := by
  unfold mkdir at h
  split_ifs at h with hc
  cases h
  exact ⟨hc.2.1, rfl, Nat.sub_add_cancel hc.2.2⟩

theorem enter_takes {m : Bool} (h : enter m s x = .ok s') :
    m = true ∧ s.ofile ⊆ s'.ofile ∧ s.room ≤ s'.room + 1 ∧
      (s'.ofile = s.ofile → lookup s.tree s.cwd x = none) := by
  unfold enter at h
  split_ifs at h with hm
  refine ⟨by simpa using hm, ?_⟩
  split at h
  · next s₁ hopen =>
    obtain ⟨-, hroom, -, fd, hfd, hofile, -⟩ := openRdonly_takes hopen
    split at h
    · next s₂ hch =>
      cases h
      have hsame := chdir_sameTables hch
      rw [hsame.ofile, hsame.room, hofile, hroom]
      refine ⟨Finset.subset_insert _ _, Nat.le_succ _, fun heq => ?_⟩
      have hnew := (Finset.mem_sdiff.mp (fdalloc_mem hfd)).2
      exact absurd (heq ▸ Finset.mem_insert_self fd s.ofile) hnew
    · cases h
  · split at h
    · cases h
    · next s₁ hmk =>
      obtain ⟨hnone, hofile, hroom⟩ := mkdir_takes hmk
      split at h
      · next s₂ hch =>
        cases h
        have hsame := chdir_sameTables hch
        rw [hsame.ofile, hsame.room, hofile]
        exact ⟨Finset.Subset.refl _, hroom.ge, fun _ => hnone⟩
      · cases h

theorem forall_mem_succ {n k : ℕ} :
    (∀ i < k + 1, mem (n + i) = true) ↔ mem n = true ∧ ∀ i < k, mem (n + 1 + i) = true := by
  rw [Nat.forall_lt_succ_left]
  simp only [Nat.add_zero, Nat.add_assoc, Nat.add_comm 1]

theorem descendNames_takes {names : List Str} {n n' : ℕ}
    (h : descendNames mem s names n = .ok (s', n')) :
    (∀ i < names.length, mem (n + i) = true) ∧ s.ofile ⊆ s'.ofile ∧
      s.room ≤ s'.room + names.length := by
  induction names generalizing s n with
  | nil =>
    cases h
    exact ⟨fun i hi => absurd hi (Nat.not_lt_zero i), Finset.Subset.refl _, le_rfl⟩
  | cons x names ih =>
    obtain ⟨s₁, henter, hrun⟩ := descendNames_cons_ok.mp h
    obtain ⟨hm, hofile, hroom, -⟩ := enter_takes henter
    obtain ⟨hmem, hofile', hroom'⟩ := ih hrun
    refine ⟨forall_mem_succ.mpr ⟨hm, hmem⟩, hofile.trans hofile', ?_⟩
    rw [List.length_cons]
    omega

/-- A name that directories can have, other than the dots. -/
def Plain (x : Str) : Prop := isDot x = false ∧ x.length ≤ dirsiz

theorem Plain.length_lt (h : Plain x) : x.length < maxPath := lt_of_le_of_lt h.2 (by decide)

theorem lookup_plain (h : Plain x) (t : Tree) (d : ℕ) : lookup t d x = t.entry d x := by
  rw [lookup_of_not_isDot h.1, List.take_of_length_le h.2]

def walk (t : Tree) (d : ℕ) : List Str → Option ℕ
  | [] => some d
  | x :: names =>
    match lookup t d x with
    | none => none
    | some c => walk t c names

theorem walk_cons {t : Tree} {d c : ℕ} {names : List Str} (h : lookup t d x = some c) :
    walk t d (x :: names) = walk t c names := by
  rw [walk, h]

/-- Every prefix of the names leads to a directory. -/
def AllDirs (t : Tree) (d : ℕ) (names : List Str) : Prop :=
  ∀ before, before <+: names → ∃ a, walk t d before = some a ∧ t.isDir a = true

theorem allDirs_cons {t : Tree} {d : ℕ} {names : List Str} (hd : t.isDir d = true) :
    AllDirs t d (x :: names) ↔ ∃ c, lookup t d x = some c ∧ AllDirs t c names := by
  constructor
  · intro h
    obtain ⟨c, hc, -⟩ := h [x] ⟨names, rfl⟩
    cases hl : lookup t d x with
    | none =>
      rw [walk, hl] at hc
      cases hc
    | some c =>
      refine ⟨c, rfl, fun before hb => ?_⟩
      obtain ⟨a, ha, hdir⟩ := h (x :: before) (List.cons_prefix_cons.mpr ⟨rfl, hb⟩)
      rw [walk_cons hl] at ha
      exact ⟨a, ha, hdir⟩
  · rintro ⟨c, hl, h⟩ before hb
    cases before with
    | nil => exact ⟨d, rfl, hd⟩
    | cons y before =>
      obtain ⟨rfl, hrest⟩ := List.cons_prefix_cons.mp hb
      rw [walk_cons hl]
      exact h before hrest

theorem AllDirs.isDir {t : Tree} {d : ℕ} {names : List Str} (h : AllDirs t d names) :
    t.isDir d = true := by
  obtain ⟨a, ha, hdir⟩ := h [] (List.nil_prefix)
  cases ha
  exact hdir

theorem enter_there {a : ℕ} (hx : Plain x) (hl : lookup s.tree s.cwd x = some a)
    (ha : s.tree.isDir a = true) :
    (0 < s.files ∧ 0 < freeFds s.ofile → ∃ s', enter true s x = .ok s' ∧ s'.tree = s.tree ∧
      s'.cwd = a ∧ s'.files + 1 = s.files ∧ freeFds s'.ofile + 1 = freeFds s.ofile) ∧
    (¬ (0 < s.files ∧ 0 < freeFds s.ofile) → enter true s x = .error s) := by
  have hname : namei s x = some a := by rw [namei, if_pos hx.length_lt, hl]
  have hopenable := s.tree.dir_openable a ha
  have hmk : mkdir s x = none := by
    rw [mkdir, if_neg]
    rw [hl]
    exact fun h => by cases h.2.1
  constructor
  · rintro ⟨hfiles, hfree⟩
    cases hfd : fdalloc s.ofile with
    | none => exact absurd (fdalloc_eq_none.mp hfd) hfree.ne'
    | some fd =>
      have hopen : openRdonly s x =
          some { s with ofile := insert fd s.ofile, files := s.files - 1 } := by
        rw [openRdonly, hname]
        simp only [if_pos (And.intro hopenable hfiles), hfd]
      refine ⟨{ s with ofile := insert fd s.ofile, files := s.files - 1, cwd := a, cwd_isDir := ha },
        ?_, rfl, rfl, Nat.sub_add_cancel hfiles, freeFds_insert hfd⟩
      have hch : chdir { s with ofile := insert fd s.ofile, files := s.files - 1 } x = some
          { s with ofile := insert fd s.ofile, files := s.files - 1, cwd := a, cwd_isDir := ha } := by
        have hname' : namei { s with ofile := insert fd s.ofile, files := s.files - 1 } x = some a :=
          hname
        rw [chdir, hname']
        simp only [dif_pos ha]
      rw [enter, if_neg (by decide), hopen]
      simp only [hch]
  · intro hnot
    have hopen : openRdonly s x = none := by
      rw [openRdonly, hname]
      simp only
      split_ifs with hc
      · have hfd : fdalloc s.ofile = none := by
          rw [fdalloc_eq_none]
          by_contra hne
          exact hnot ⟨hc.2, Nat.pos_of_ne_zero hne⟩
        rw [hfd]
      · rfl
    rw [enter, if_neg (by decide), hopen]
    simp only [hmk]

theorem descendNames_there {names : List Str} {n : ℕ} (hplain : ∀ x ∈ names, Plain x)
    (hmem : ∀ i < names.length, mem (n + i) = true) (h : AllDirs s.tree s.cwd names) :
    ((∃ r, descendNames mem s names n = .ok r) ↔
      names.length ≤ s.files ∧ names.length ≤ freeFds s.ofile) ∧
    ∀ s' n', descendNames mem s names n = .ok (s', n') → s'.tree = s.tree := by
  induction names generalizing s n with
  | nil =>
    constructor
    · exact iff_of_true ⟨_, rfl⟩ ⟨Nat.zero_le _, Nat.zero_le _⟩
    · intro s' n' hrun
      cases hrun
      rfl
  | cons x names ih =>
    obtain ⟨hx, hrest⟩ := List.forall_mem_cons.mp hplain
    obtain ⟨a, hl, hall⟩ := (allDirs_cons s.cwd_isDir).mp h
    obtain ⟨hyes, hno⟩ := enter_there hx hl hall.isDir
    obtain ⟨hm, hmem'⟩ := forall_mem_succ.mp hmem
    rw [descendNames, hm]
    by_cases hc : 0 < s.files ∧ 0 < freeFds s.ofile
    · obtain ⟨s₁, henter, htree, hcwd, hfiles, hfree⟩ := hyes hc
      rw [henter]
      obtain ⟨hiff, hsame⟩ := ih (s := s₁) hrest hmem' (by rw [htree, hcwd]; exact hall)
      simp only
      rw [hiff, List.length_cons]
      exact ⟨by omega, fun s' n' hrun => (hsame s' n' hrun).trans htree⟩
    · rw [hno hc]
      constructor
      · rw [List.length_cons]
        constructor
        · rintro ⟨r, hr⟩
          cases hr
        · omega
      · exact fun s' n' hrun => by cases hrun

end Xv6.Mkdir
