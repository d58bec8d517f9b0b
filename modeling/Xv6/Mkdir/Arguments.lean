import Xv6.Mkdir.Prefixes

/-! The arguments of `mkdir -p`, one after the other. -/
namespace Xv6.Mkdir

variable {mem : ℕ → Bool} {s s' : State} {path : Str}

/-- The directory in which a path starts for a process in `o`. -/
def origin (o : ℕ) (path : Str) : ℕ := if path.headD 0 = 47 then rootIno else o

theorem startState_eq (s : State) (path : Str) :
    (startState s path).tree = s.tree ∧ (startState s path).cwd = origin s.cwd path ∧
      SameTables s (startState s path) := by
  unfold startState origin
  split_ifs
  · exact ⟨rfl, rfl, rfl, rfl, rfl⟩
  · exact ⟨rfl, rfl, rfl, rfl, rfl⟩

theorem mkdirP_returns_iff : (mkdirP mem s path).1 = true ↔
    ∃ r, descendNames mem (startState s path) (components path) 0 = .ok r := by
  cases h : descendNames mem (startState s path) (components path) 0 with
  | error s' =>
    rw [mkdirP_error h]
    constructor
    · exact fun hf => by cases hf
    · exact fun ⟨r, hr⟩ => by cases hr
  | ok r =>
    obtain ⟨s₁, hrun, -⟩ := mkdirP_ok h
    rw [hrun]
    exact iff_of_true rfl ⟨r, rfl⟩

structure Call where
  mem : ℕ → Bool
  before : State
  path : Str

namespace Call

variable {c : Call} {o : ℕ}

def names (c : Call) : List Str := components c.path

def after (c : Call) : State := (mkdirP c.mem c.before c.path).2

/-- The call for a process that was started in `o`: it returns 0, every prefix of the path is a
directory, nothing else has changed, no descriptor is left open, and a second call changes nothing. -/
structure Accepted (o : ℕ) (c : Call) : Prop where
  returns : (mkdirP c.mem c.before c.path).1 = true
  prefixes : AllDirs c.after.tree (origin o c.path) c.names
  only : AddedOnly c.before.tree c.after.tree (origin o c.path) c.names
  ofile : c.after.ofile = c.before.ofile
  again : (mkdirP c.mem c.after c.path).1 = true
  again_tree : (mkdirP c.mem c.after c.path).2.tree = c.after.tree

/-- The path has no names, or it starts where the process was started, its first name is missing, and
there are memory and descriptors for all its names. -/
def Ready (o : ℕ) (c : Call) : Prop :=
  c.names = [] ∨ (∀ i < c.names.length, c.mem i = true) ∧
    origin c.before.cwd c.path = origin o c.path ∧
    (∀ x ∈ c.names.head?, lookup c.before.tree (origin o c.path) x = none) ∧
    c.names.length ≤ c.before.files ∧ c.names.length ≤ freeFds c.before.ofile

theorem missing (hplain : ∀ x ∈ c.names, Plain x) (hmem : ∀ i < c.names.length, c.mem i = true)
    (hroom : c.names.length ≤ c.before.room)
    (hfirst : ∀ x ∈ c.names.head?, lookup c.before.tree (origin c.before.cwd c.path) x = none) :
    (mkdirP c.mem c.before c.path).1 = true ∧ c.after.ofile = c.before.ofile ∧
      AddedOnly c.before.tree c.after.tree (origin c.before.cwd c.path) c.names ∧
      AllDirs c.after.tree (origin c.before.cwd c.path) c.names ∧
      ((mkdirP c.mem c.after c.path).1 = true ↔
        c.names.length ≤ c.before.files ∧ c.names.length ≤ freeFds c.before.ofile) ∧
      ((mkdirP c.mem c.after c.path).1 = true →
        (mkdirP c.mem c.after c.path).2.tree = c.after.tree) := by
  obtain ⟨htree, hcwd, hsame⟩ := startState_eq c.before c.path
  have hmem' : ∀ i < c.names.length, c.mem (0 + i) = true := by simpa using hmem
  obtain ⟨s₁, hrun, hofile, hfiles, hadded, hall⟩ := descendNames_missing (n := 0) hplain hmem'
    (s := startState c.before c.path) (by rw [hsame.room]; exact hroom)
    (by rw [htree, hcwd]; exact hfirst)
  obtain ⟨-, -, -, hparent⟩ := descendNames_ok hrun
  obtain ⟨s₂, hcall, htree₂, hcwd₂, hsame₂⟩ := mkdirP_ok hrun
  have hafter : c.after = s₂ := by rw [after, hcall]
  rw [htree, hcwd] at hadded
  rw [hcwd] at hall
  rw [Nat.zero_add, hparent fun x hx => (hplain x hx).1, hcwd] at hcwd₂
  rw [hcall, hafter, htree₂, hsame₂.ofile, hofile, hsame.ofile]
  -- the second call starts in the same directory and finds all names
  obtain ⟨htree', hcwd', hsame'⟩ := startState_eq s₂ c.path
  have hstart : origin s₂.cwd c.path = origin c.before.cwd c.path := by
    rw [hcwd₂]
    unfold origin
    split_ifs <;> rfl
  obtain ⟨hiff, htree''⟩ := descendNames_there (s := startState s₂ c.path) hplain hmem'
    (by rw [htree', hcwd', htree₂, hstart]; exact hall)
  rw [hsame'.files, hsame'.ofile, hsame₂.files, hsame₂.ofile, hfiles, hofile, hsame.files,
    hsame.ofile] at hiff
  refine ⟨rfl, rfl, hadded, hall, mkdirP_returns_iff.trans hiff, fun hreturns => ?_⟩
  obtain ⟨⟨s₃, n₃⟩, hrun₃⟩ := mkdirP_returns_iff.mp hreturns
  obtain ⟨s₄, hcall₄, htree₄, -⟩ := mkdirP_ok hrun₃
  rw [hcall₄, htree₄, htree'' s₃ n₃ hrun₃, htree', htree₂]

end Call

theorem descendNames_first {names : List Str} {n n' : ℕ}
    (h : descendNames mem s names n = .ok (s', n')) (hofile : s'.ofile = s.ofile) :
    ∀ x ∈ names.head?, lookup s.tree s.cwd x = none := by
  intro x hx
  obtain ⟨rest, rfl⟩ := List.head?_eq_some_iff.mp hx
  obtain ⟨s₁, henter, hrun⟩ := descendNames_cons_ok.mp h
  obtain ⟨-, hsub, -, hnone⟩ := enter_takes henter
  obtain ⟨-, hsub', -⟩ := descendNames_takes hrun
  exact hnone (Finset.Subset.antisymm (hofile ▸ hsub') hsub)

theorem isDir_of_walk {t : Tree} {d a : ℕ} {names : List Str} (hplain : ∀ x ∈ names, Plain x)
    (h : walk t d names = some a) (ha : t.isDir a = true) : t.isDir d = true := by
  cases names with
  | nil =>
    cases h
    exact ha
  | cons x names =>
    rw [walk, lookup_plain (hplain x List.mem_cons_self)] at h
    split at h
    · cases h
    · next c hc => exact (t.entry_isDir d x c hc).1

theorem depth_walk {t : Tree} {d a : ℕ} {names : List Str} (hplain : ∀ x ∈ names, Plain x)
    (h : walk t d names = some a) (ha : t.isDir a = true) :
    t.depth a = t.depth d + names.length := by
  induction names generalizing d with
  | nil =>
    cases h
    rfl
  | cons x names ih =>
    obtain ⟨hx, hrest⟩ := List.forall_mem_cons.mp hplain
    rw [walk, lookup_plain hx] at h
    split at h
    · cases h
    · next c hc =>
      have hstep := (t.entry_parent d x c hc (isDir_of_walk hrest h ha)).2
      rw [ih hrest h, hstep, List.length_cons]
      omega

namespace Call

variable {c : Call} {o : ℕ}

theorem Accepted.origin_eq (hplain : ∀ x ∈ c.names, Plain x) (ho : c.before.tree.isDir o = true)
    (hcwd : c.before.cwd = o ∨ c.before.cwd = rootIno) (h : Accepted o c) (hne : c.names ≠ [])
    (hfirst : ∀ x ∈ c.names.head?, lookup c.before.tree (origin c.before.cwd c.path) x = none)
    (hall : AllDirs c.after.tree (origin c.before.cwd c.path) c.names) :
    origin c.before.cwd c.path = origin o c.path := by
  by_cases habs : c.path.headD 0 = 47
  · rw [origin, if_pos habs, origin, if_pos habs]
  · rw [origin, if_neg habs] at hfirst hall ⊢
    have honly := h.only
    rw [origin, if_neg habs] at honly ⊢
    obtain heq | hroot := hcwd
    · exact heq
    · obtain ⟨x, rest, hnames⟩ := List.exists_cons_of_ne_nil hne
      have hx : Plain x := hplain x (by rw [hnames]; exact List.mem_cons_self)
      rw [hnames] at hall
      obtain ⟨a, hl, -⟩ := (allDirs_cons hall.isDir).mp hall
      rw [lookup_plain hx] at hl
      have hold := hfirst x (by rw [hnames]; rfl)
      rw [lookup_plain hx] at hold
      obtain hkept | ⟨before, hpre, -, hwalk⟩ := honly.new_entry _ _ _ hl
      · rw [hold] at hkept
        cases hkept
      · have hbefore : ∀ y ∈ before, Plain y :=
          fun y hy => hplain y (hpre.subset (List.mem_append_left _ hy))
        have hdepth := depth_walk hbefore hwalk hall.isDir
        have hzero := (c.after.tree.depth_eq_zero _ c.after.tree.root_isDir).mpr rfl
        have ho' : c.after.tree.isDir o = true := by
          rw [(honly.used o (c.before.tree.mem_used o ho)).2.1, ho]
        rw [hroot, hzero] at hdepth
        rw [hroot]
        exact ((c.after.tree.depth_eq_zero o ho').mp (by omega)).symm

theorem accepted_nil (ho : c.before.tree.isDir o = true) (hnil : c.names = []) : Accepted o c := by
  obtain ⟨hreturns, hofile, hadded, hall, hagain, htree⟩ := missing (c := c)
    (by rw [hnil]; exact fun x hx => absurd hx List.not_mem_nil)
    (by rw [hnil]; exact fun i hi => absurd hi (Nat.not_lt_zero i))
    (by rw [hnil]; exact Nat.zero_le _)
    (by rw [hnil]; exact fun x hx => by cases hx)
  rw [hnil] at hadded hagain
  have hsecond := hagain.mpr ⟨Nat.zero_le _, Nat.zero_le _⟩
  refine ⟨hreturns, ?_, hnil ▸ hadded.of_nil _, hofile, hsecond, htree hsecond⟩
  intro before hb
  rw [hnil] at hb
  rw [List.prefix_nil.mp hb]
  refine ⟨_, rfl, ?_⟩
  unfold origin
  split_ifs
  · exact c.after.tree.root_isDir
  · rw [(hadded.used o (c.before.tree.mem_used o ho)).2.1, ho]

theorem accepted_iff (hplain : ∀ x ∈ c.names, Plain x) (hroom : c.names.length ≤ c.before.room)
    (ho : c.before.tree.isDir o = true) (hcwd : c.before.cwd = o ∨ c.before.cwd = rootIno) :
    Accepted o c ↔ Ready o c := by
  constructor
  · intro h
    by_cases hne : c.names = []
    · exact Or.inl hne
    · right
      obtain ⟨htree, hcwd', hsame⟩ := startState_eq c.before c.path
      obtain ⟨⟨s₁, n⟩, hrun⟩ := mkdirP_returns_iff.mp h.returns
      obtain ⟨s₂, hcall, -, -, hsame₂⟩ := mkdirP_ok hrun
      have hofile : s₁.ofile = (startState c.before c.path).ofile := by
        rw [hsame.ofile, ← h.ofile, after, hcall, hsame₂.ofile]
      have hmem : ∀ i < c.names.length, c.mem i = true := by
        intro i hi
        simpa using (descendNames_takes hrun).1 i hi
      have hfirst := descendNames_first hrun hofile
      rw [htree, hcwd'] at hfirst
      obtain ⟨-, -, -, hall, hagain, -⟩ := missing hplain hmem hroom hfirst
      have horigin := h.origin_eq hplain ho hcwd hne hfirst hall
      exact ⟨hmem, horigin, horigin ▸ hfirst, hagain.mp h.again⟩
  · rintro (hnil | ⟨hmem, horigin, hfirst, hfds⟩)
    · exact accepted_nil ho hnil
    · rw [← horigin] at hfirst
      obtain ⟨hreturns, hofile, hadded, hall, hagain, htree⟩ := missing hplain hmem hroom hfirst
      rw [horigin] at hadded hall
      have hsecond := hagain.mpr hfds
      exact ⟨hreturns, hall, hadded, hofile, hsecond, htree hsecond⟩

theorem returns_keeps (hplain : ∀ x ∈ c.names, Plain x)
    (h : (mkdirP c.mem c.before c.path).1 = true) :
    Grows c.before.tree c.after.tree ∧ c.after.cwd = origin c.before.cwd c.path ∧
      c.before.room ≤ c.after.room + c.names.length := by
  obtain ⟨htree, hcwd, hsame⟩ := startState_eq c.before c.path
  obtain ⟨⟨s₁, n⟩, hrun⟩ := mkdirP_returns_iff.mp h
  obtain ⟨s₂, hcall, htree₂, hcwd₂, hsame₂⟩ := mkdirP_ok hrun
  obtain ⟨hn, hgrow, -, hparent⟩ := descendNames_ok hrun
  obtain ⟨-, -, hroom⟩ := descendNames_takes hrun
  have hafter : c.after = s₂ := by rw [after, hcall]
  rw [hn, Nat.zero_add, hparent fun x hx => (hplain x hx).1, hcwd] at hcwd₂
  rw [hafter, htree₂, hsame₂.room, hcwd₂, ← htree, ← hsame.room]
  exact ⟨hgrow, rfl, hroom⟩

end Call

/-- The calls that the loop of `main` makes, up to the first that fails. -/
def calls (mem : ℕ → ℕ → Bool) : ℕ → State → List Str → List Call
  | _, _, [] => []
  | i, s, path :: args =>
    ⟨mem i, s, path⟩ ::
      if (mkdirP (mem i) s path).1 = true then calls mem (i + 1) (mkdirP (mem i) s path).2 args
      else []

def nameCount (args : List Str) : ℕ := (args.map fun path => (components path).length).sum

theorem calls_spec {mem : ℕ → ℕ → Bool} {args : List Str} {i o : ℕ}
    (hplain : ∀ path ∈ args, ∀ x ∈ components path, Plain x) (hroom : nameCount args ≤ s.room)
    (ho : s.tree.isDir o = true) (hcwd : s.cwd = o ∨ s.cwd = rootIno) :
    ∀ c ∈ calls mem i s args, (∀ x ∈ c.names, Plain x) ∧ c.names.length ≤ c.before.room ∧
      c.before.tree.isDir o = true ∧ (c.before.cwd = o ∨ c.before.cwd = rootIno) := by
  induction args generalizing i s with
  | nil => exact fun c hc => absurd hc List.not_mem_nil
  | cons path args ih =>
    obtain ⟨hx, hrest⟩ := List.forall_mem_cons.mp hplain
    have hsum : (components path).length + nameCount args ≤ s.room := by
      rw [nameCount, List.map_cons, List.sum_cons] at hroom
      exact hroom
    intro c hc
    rw [calls] at hc
    obtain rfl | hc := List.mem_cons.mp hc
    · exact ⟨hx, le_trans (Nat.le_add_right _ _) hsum, ho, hcwd⟩
    · split_ifs at hc with hreturns
      · have hkeeps : Grows s.tree (mkdirP (mem i) s path).2.tree ∧
            (mkdirP (mem i) s path).2.cwd = origin s.cwd path ∧
            s.room ≤ (mkdirP (mem i) s path).2.room + (components path).length :=
          Call.returns_keeps (c := ⟨mem i, s, path⟩) hx hreturns
        obtain ⟨hgrow, hcwd', hroom'⟩ := hkeeps
        refine ih (s := (mkdirP (mem i) s path).2) hrest (by omega) (hgrow.isDir o ho) ?_ c hc
        rw [hcwd', origin]
        split_ifs
        · exact Or.inr rfl
        · exact hcwd
      · exact absurd hc List.not_mem_nil

theorem calls_paths {mem : ℕ → ℕ → Bool} {args : List Str} {i : ℕ}
    (h : ∀ c ∈ calls mem i s args, (mkdirP c.mem c.before c.path).1 = true) :
    (calls mem i s args).map Call.path = args := by
  induction args generalizing i s with
  | nil => rfl
  | cons path args ih =>
    rw [calls] at h ⊢
    obtain ⟨hreturns, hrest⟩ := List.forall_mem_cons.mp h
    replace hreturns : (mkdirP (mem i) s path).1 = true := hreturns
    rw [if_pos hreturns] at hrest ⊢
    rw [List.map_cons, ih hrest]

/-- `mkdir -p` keeps its promises for all its arguments if and only if each finds its first name
missing and descriptors for all its names, and is not a relative path after an absolute one. -/
theorem mkdir_accepts_iff (mem : ℕ → ℕ → Bool) (s : State) (args : List Str)
    (hplain : ∀ path ∈ args, ∀ x ∈ components path, isDot x = false ∧ x.length ≤ dirsiz)
    (hroom : nameCount args ≤ s.room) :
    ((calls mem 0 s args).map Call.path = args ∧ ∀ c ∈ calls mem 0 s args, c.Accepted s.cwd) ↔
      ∀ c ∈ calls mem 0 s args, c.Ready s.cwd := by
  have hiff : ∀ c ∈ calls mem 0 s args, c.Accepted s.cwd ↔ c.Ready s.cwd := by
    intro c hc
    obtain ⟨hnames, hlen, ho, hcwd⟩ := calls_spec hplain hroom s.cwd_isDir (Or.inl rfl) c hc
    exact Call.accepted_iff hnames hlen ho hcwd
  constructor
  · exact fun h c hc => (hiff c hc).mp (h.2 c hc)
  · intro h
    have hall := fun c hc => (hiff c hc).mpr (h c hc)
    exact ⟨calls_paths fun c hc => (hall c hc).returns, hall⟩

def inRoot : State where
  tree := oneDir
  cwd := rootIno
  cwd_isDir := rfl
  ofile := {0, 1, 2}
  files := 90
  room := 100

/-- `mkdir -p b/c/b` where there is only `a`. -/
theorem mkdir_accepts_iff_new :
    (calls (fun _ _ => true) 0 inRoot [lit "b/c/b"]).map Call.path = [lit "b/c/b"] ∧
      ∀ c ∈ calls (fun _ _ => true) 0 inRoot [lit "b/c/b"], c.Accepted inRoot.cwd := by
  have hnames : components (lit "b/c/b") = [lit "b", lit "c", lit "b"] := rfl
  refine (mkdir_accepts_iff (fun _ _ => true) inRoot [lit "b/c/b"] ?_ ?_).mpr ?_
  · intro path hpath
    rw [List.mem_singleton.mp hpath, hnames]
    decide
  · decide
  · intro c hc
    simp only [calls, ite_self, List.mem_singleton] at hc
    rw [hc]
    refine Or.inr ⟨fun _ _ => rfl, rfl, ?_, ?_, ?_⟩
    · rw [Call.names, hnames]
      decide
    · decide
    · decide

/-- `mkdir -p a` reports success where `a` is a directory and leaves it open. -/
theorem mkdirP_there :
    walk inRoot.tree inRoot.cwd [lit "a"] = some 2 ∧ inRoot.tree.isDir 2 = true ∧
      (mkdirP (fun _ => true) inRoot (lit "a")).1 = true ∧
      (mkdirP (fun _ => true) inRoot (lit "a")).2.ofile = insert 3 inRoot.ofile ∧
      3 ∉ inRoot.ofile := by
  have hnames : components (lit "a") = [lit "a"] := rfl
  rw [mkdirP, descend_eq, hnames]
  exact ⟨rfl, rfl, rfl, rfl, by decide⟩

end Xv6.Mkdir
