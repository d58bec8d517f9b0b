import Xv6.Mkdir.Program

/-! `mkdir_p` in terms of the names in its path: the descent enters one after the other, and the climb
back always succeeds. -/
namespace Xv6.Mkdir

def components (path : Str) : List Str := (path.splitOn 47).filter fun x => !x.isEmpty

def descendNames (mem : ℕ → Bool) (s : State) : List Str → ℕ → Except State (State × ℕ)
  | [], n => .ok (s, n)
  | x :: names, n =>
    match enter (mem n) s x with
    | .error s => .error s
    | .ok s => descendNames mem s names (n + 1)

theorem components_slash (path : Str) : components (47 :: path) = components path := by
  simp [components, List.splitOn, List.splitOnP_cons_eq_if_modifyHead]

theorem splitOn_slash (path : Str) :
    path.splitOn 47 = path.takeWhile (· ≠ 47) ::
      match path.dropWhile (· ≠ 47) with
      | [] => []
      | _ :: rest => rest.splitOn 47 := by
  induction path with
  | nil => rfl
  | cons c path ih =>
    rw [List.splitOn, List.splitOnP_cons_eq_if_modifyHead]
    by_cases hc : c = 47
    · simp [hc, List.splitOn]
    · rw [List.splitOn] at ih
      rw [ih]
      simp [hc]

theorem components_cons {c : UInt8} (hc : c ≠ 47) (rest : Str) :
    components (c :: rest) =
      (c :: rest).takeWhile (· ≠ 47) :: components (rest.dropWhile (· ≠ 47)) := by
  have hdrop : (c :: rest).dropWhile (· ≠ 47) = rest.dropWhile (· ≠ 47) := by simp [hc]
  have htake : ((c :: rest).takeWhile (· ≠ 47)).isEmpty = false := by simp [hc]
  rw [components, splitOn_slash, hdrop, List.filter_cons, htake]
  simp only [Bool.not_false, if_true, List.cons.injEq, true_and]
  cases hr : rest.dropWhile (· ≠ 47) with
  | nil => rfl
  | cons d tail =>
    have hd : d = 47 := by
      have hne : rest.dropWhile (· ≠ 47) ≠ [] := by
        rw [hr]
        exact List.cons_ne_nil _ _
      have hhead := List.head_dropWhile_not (fun x : UInt8 => decide (x ≠ 47)) hne
      simp only [hr, List.head_cons] at hhead
      simpa using hhead
    rw [hd, components_slash]
    rfl

theorem descend_eq (mem : ℕ → Bool) (s : State) (path : Str) (n : ℕ) :
    descend mem s path n = descendNames mem s (components path) n := by
  fun_induction descend mem s path n with
  | case1 => rfl
  | case2 s n rest ih => rw [components_slash, ih]
  | case3 s n c rest hc s' henter => rw [components_cons hc, descendNames, henter]
  | case4 s n c rest hc s' henter ih =>
    rw [components_cons hc, descendNames, henter]
    exact ih

variable {mem : ℕ → Bool} {s s' : State} {x path : Str}

theorem descendNames_cons_ok {names : List Str} {n : ℕ} {r : State × ℕ} :
    descendNames mem s (x :: names) n = .ok r ↔
      ∃ s₁, enter (mem n) s x = .ok s₁ ∧ descendNames mem s₁ names (n + 1) = .ok r := by
  rw [descendNames]
  cases enter (mem n) s x with
  | error s₁ => simp
  | ok s₁ => simp

theorem chdir_spec (h : chdir s x = some s') :
    lookup s.tree s.cwd x = some s'.cwd ∧ s'.tree = s.tree := by
  unfold chdir namei at h
  split_ifs at h with hlen
  · cases hl : lookup s.tree s.cwd x with
    | none =>
      rw [hl] at h
      cases h
    | some ip =>
      rw [hl] at h
      simp only at h
      split_ifs at h
      cases h
      exact ⟨rfl, rfl⟩

theorem chdir_dotdot (s : State) :
    ∃ s', chdir s (lit "..") = some s' ∧ s'.tree = s.tree ∧ s'.cwd = s.tree.parent s.cwd := by
  have hp := s.tree.parent_isDir _ s.cwd_isDir
  refine ⟨{ s with cwd := s.tree.parent s.cwd, cwd_isDir := hp }, ?_, rfl, rfl⟩
  have hname : namei s (lit "..") = some (s.tree.parent s.cwd) := by
    rw [namei, if_pos (by decide), lookup, if_neg (by decide), if_pos rfl]
  rw [chdir, hname]
  simp only [dif_pos hp]

/-- The climb back succeeds from everywhere. -/
theorem climb_spec (n : ℕ) (s : State) :
    ∃ s', climb n s = .ok s' ∧ s'.tree = s.tree ∧ s'.cwd = s.tree.parent^[n] s.cwd := by
  induction n generalizing s with
  | zero => exact ⟨s, rfl, rfl, rfl⟩
  | succ n ih =>
    obtain ⟨s₁, hup, htree, hcwd⟩ := chdir_dotdot s
    obtain ⟨s', hclimb, htree', hcwd'⟩ := ih s₁
    refine ⟨s', ?_, htree'.trans htree, ?_⟩
    · rw [climb, hup]
      exact hclimb
    · rw [hcwd', htree, hcwd, Function.iterate_succ_apply]

structure SameTables (s s' : State) : Prop where
  ofile : s'.ofile = s.ofile
  files : s'.files = s.files
  room : s'.room = s.room

theorem chdir_sameTables (h : chdir s x = some s') : SameTables s s' := by
  unfold chdir at h
  split at h
  · cases h
  · split_ifs at h
    cases h
    exact ⟨rfl, rfl, rfl⟩

theorem climb_sameTables {n : ℕ} (h : climb n s = .ok s') : SameTables s s' := by
  induction n generalizing s with
  | zero =>
    cases h
    exact ⟨rfl, rfl, rfl⟩
  | succ n ih =>
    rw [climb] at h
    split at h
    · cases h
    · next s₁ hup =>
      have h₁ := chdir_sameTables hup
      have h₂ := ih h
      exact ⟨h₂.ofile.trans h₁.ofile, h₂.files.trans h₁.files, h₂.room.trans h₁.room⟩

def startState (s : State) (path : Str) : State := if path.headD 0 = 47 then chdirRoot s else s

theorem mkdirP_error (h : descendNames mem (startState s path) (components path) 0 = .error s') :
    mkdirP mem s path = (false, s') := by
  rw [startState, ← descend_eq] at h
  rw [mkdirP, h]

theorem mkdirP_ok {n : ℕ}
    (h : descendNames mem (startState s path) (components path) 0 = .ok (s', n)) :
    ∃ s₁, mkdirP mem s path = (true, s₁) ∧ s₁.tree = s'.tree ∧
      s₁.cwd = s'.tree.parent^[n] s'.cwd ∧ SameTables s' s₁ := by
  rw [startState, ← descend_eq] at h
  obtain ⟨s₁, hclimb, htree, hcwd⟩ := climb_spec n s'
  refine ⟨s₁, ?_, htree, hcwd, climb_sameTables hclimb⟩
  rw [mkdirP, h]
  simp only [hclimb]

end Xv6.Mkdir
