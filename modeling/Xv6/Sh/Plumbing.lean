import Xv6.Sh.Run

/-! Which descriptors the processes of a command have. Every process satisfies a condition on the code
that it still has to run, and so do the processes that it forks. -/
namespace Xv6.Sh

open Lib

section Spec

def Call.file (fd : ℕ) : Call → Option File
  | redir r => if r.fd = fd then some (.opened r.file r.mode) else none
  | left k => if fd = 1 then some (.pipe k true) else none
  | right k => if fd = 0 then some (.pipe k false) else none
  | _ => none

/-- The innermost enclosing construct that sets descriptor `fd` counts; without one it is inherited. -/
def fileAt (calls : List Call) (fd : ℕ) : File :=
  (calls.reverse.findSome? (Call.file fd)).getD (.inherited fd)

def std (calls : List Call) : Table := fun fd => if fd < 3 then some (fileAt calls fd) else none

/-- The part of the command that the calls lead to. -/
def Cmd.follow : Cmd Str → List Call → Option (Cmd Str)
  | c, [] => some c
  | .redir c r, .redir r' :: cs => if r = r' then c.follow cs else none
  | .list l _, .first :: cs => l.follow cs
  | .list _ r, .second :: cs => r.follow cs
  | .pipe l _, .left _ :: cs => l.follow cs
  | .pipe _ r, .right _ :: cs => r.follow cs
  | .back c, .back :: cs => c.follow cs
  | _, _ => none

/-- The call of the side of pipe `k` that uses this end. -/
def side (write : Bool) (k : ℕ) : Call := if write then .left k else .right k

/-- Only the sides of pipes that it belongs to have given the process pipe ends. -/
def Settled (t : Table) (calls : List Call) : Prop :=
  ∀ fd k w, t fd = some (.pipe k w) → side w k ∈ calls

/-- Besides those it may have the ends of one pipe. -/
def Within (t : Table) (calls : List Call) (pipe : Option ℕ) : Prop :=
  ∀ fd k w, t fd = some (.pipe k w) → side w k ∈ calls ∨ pipe = some k

end Spec

/-- What has to hold of a process that is about to run the code. -/
def Safe (root : Cmd Str) : Code → Table → List Call → Option ℕ → Prop
  | .ret _, _, _, _ => False
  | .op (.close fd) k, t, calls, p =>
    Within t calls p ∧ Safe root (k (t.sysClose fd).1) (t.sysClose fd).2 calls p
  | .op (.dup fd) k, t, calls, p =>
    Within t calls p ∧ Safe root (k (t.sysDup fd).1) (t.sysDup fd).2 calls p
  | .op (.openFile path mode) k, t, calls, p =>
    Settled t calls ∧ Safe root (k (t.newfd (.opened path mode)).1) (t.newfd (.opened path mode)).2 calls p
  | .op .pipe k, t, calls, _ =>
    Settled t calls ∧ ∀ n, Safe root (k (t.sysPipe n).1) (t.sysPipe n).2 calls (some n)
  | .op .fork k, t, calls, p =>
    Within t calls p ∧ Safe root (k (0 : ℤ)) t calls p ∧
      ∀ pid : ℕ, 0 < pid → Safe root (k (pid : ℤ)) t calls p
  | .op .wait k, t, calls, p => Settled t calls ∧ ∀ r : ℤ, Safe root (k r) t calls p
  | .op (.exec argv) _, t, calls, _ => t = std calls ∧ root.follow calls = some (.exec argv)
  | .op (.exit _) _, t, calls, _ => Settled t calls
  | .op (.runcmd b cmd) _, t, calls, p =>
    Within t calls p ∧ ∃ c, b.call p = some c ∧ t = std (calls ++ [c]) ∧
      root.follow (calls ++ [c]) = some cmd

variable {root c : Cmd Str} {calls : List Call} {t : Table} {f : File} {fd k : ℕ} {p : Option ℕ}

theorem fileAt_append (calls : List Call) (c : Call) (fd : ℕ) :
    fileAt (calls ++ [c]) fd = (c.file fd).getD (fileAt calls fd) := by
  rw [fileAt, List.reverse_append, List.reverse_singleton, List.singleton_append,
    List.findSome?_cons]
  cases c.file fd <;> rfl

theorem settled_std (calls : List Call) : Settled (std calls) calls := by
  intro fd k w h
  unfold std at h
  split_ifs at h
  have hf : (calls.reverse.findSome? (Call.file fd)).getD (.inherited fd) = .pipe k w :=
    Option.some.inj h
  cases hfind : calls.reverse.findSome? (Call.file fd) with
  | none =>
    rw [hfind] at hf
    cases hf
  | some g =>
    rw [hfind] at hf
    obtain ⟨c, hc, hg⟩ := List.exists_of_findSome?_eq_some hfind
    rw [show g = .pipe k w from hf] at hg
    rw [List.mem_reverse] at hc
    have : c = side w k := by
      cases c with
      | redir r =>
        simp only [Call.file] at hg
        split_ifs at hg
        cases hg
      | left k' =>
        simp only [Call.file] at hg
        split_ifs at hg
        cases hg
        rfl
      | right k' =>
        simp only [Call.file] at hg
        split_ifs at hg
        cases hg
        rfl
      | _ => cases hg
    exact this ▸ hc

theorem fdalloc_eq (h : t fd = none) (hlow : ∀ j < fd, t j ≠ none) (hfd : fd < nofile) (f : File) :
    t.fdalloc f = some (fd, Function.update t fd (some f)) := by
  have hfrom : ∀ j ≤ fd, ∀ n, fd < j + n →
      t.fdallocFrom f n j = some (fd, Function.update t fd (some f)) := by
    intro j hj
    induction hj using Nat.decreasingInduction with
    | self =>
      intro n hn
      obtain ⟨n, rfl⟩ := Nat.exists_eq_add_one_of_ne_zero (show n ≠ 0 by omega)
      rw [Table.fdallocFrom, if_pos h]
    | of_succ j hj ih =>
      intro n hn
      obtain ⟨n, rfl⟩ := Nat.exists_eq_add_one_of_ne_zero (show n ≠ 0 by omega)
      rw [Table.fdallocFrom, if_neg (hlow j hj)]
      exact ih n (by omega)
  exact hfrom 0 (Nat.zero_le fd) nofile (by omega)

theorem newfd_eq (h : t fd = none) (hlow : ∀ j < fd, t j ≠ none) (hfd : fd < nofile) (f : File) :
    t.newfd f = ((fd : ℤ), Function.update t fd (some f)) := by
  rw [Table.newfd, fdalloc_eq h hlow hfd]

theorem sysClose_eq (h : t fd = some f) : t.sysClose fd = (0, Function.update t fd none) := by
  rw [Table.sysClose, h]

theorem sysDup_eq {fd' : ℕ} (hf : t fd' = some f) (h : t fd = none) (hlow : ∀ j < fd, t j ≠ none)
    (hfd : fd < nofile) : t.sysDup fd' = ((fd : ℤ), Function.update t fd (some f)) := by
  rw [Table.sysDup, hf]
  exact newfd_eq h hlow hfd f

theorem Settled.within (h : Settled t calls) : Within t calls p := fun fd k w hk => Or.inl (h fd k w hk)

theorem Within.close (h : Within t calls p) (fd : ℕ) : Within (Function.update t fd none) calls p := by
  intro j k w hk
  by_cases hj : j = fd
  · rw [hj, Function.update_self] at hk
    cases hk
  · rw [Function.update_of_ne hj] at hk
    exact h j k w hk

theorem Within.pipe (h : Within t calls (some k)) (fd : ℕ) (w : Bool) :
    Within (Function.update t fd (some (.pipe k w))) calls (some k) := by
  intro j k' w' hk
  by_cases hj : j = fd
  · rw [hj, Function.update_self] at hk
    cases hk
    exact Or.inr rfl
  · rw [Function.update_of_ne hj] at hk
    exact h j k' w' hk

theorem safe_fork1 {g : ℤ → Code} (hw : Within t calls p) (h0 : Safe root (g 0) t calls p)
    (hpid : ∀ pid : ℕ, 0 < pid → Safe root (g pid) t calls p) :
    Safe root (fork1 >>= g) t calls p := by
  refine ⟨hw, ?_, fun pid hpos => ?_⟩
  · show Safe root ((if (0 : ℤ) = -1 then exit 1 else pure 0) >>= g) t calls p
    rw [if_neg (by decide)]
    exact h0
  · show Safe root ((if (pid : ℤ) = -1 then exit 1 else pure (pid : ℤ)) >>= g) t calls p
    rw [if_neg (by omega)]
    exact hpid pid hpos

theorem safe_close {g : ℤ → Code} (hw : Within t calls p) (hf : t fd = some f)
    (h : Safe root (g 0) (Function.update t fd none) calls p) :
    Safe root (close fd >>= g) t calls p := by
  refine ⟨hw, ?_⟩
  rw [sysClose_eq hf]
  exact h

theorem safe_dup {g : ℤ → Code} {fd' : ℕ} (hw : Within t calls p) (hf : t fd' = some f)
    (hfree : t fd = none) (hlow : ∀ j < fd, t j ≠ none) (hfd : fd < nofile)
    (h : Safe root (g fd) (Function.update t fd (some f)) calls p) :
    Safe root (dup fd' >>= g) t calls p := by
  refine ⟨hw, ?_⟩
  rw [sysDup_eq hf hfree hlow hfd]
  exact h

theorem safe_recurse {b : Branch} {cmd : Cmd Str} {d : Call} (hw : Within t calls p)
    (hb : b.call p = some d) (ht : t = std (calls ++ [d]))
    (h : root.follow (calls ++ [d]) = some cmd) : Safe root (recurse b cmd) t calls p :=
  ⟨hw, d, hb, ht, h⟩

theorem follow_append (c : Cmd Str) (cs ds : List Call) :
    c.follow (cs ++ ds) = (c.follow cs).bind (·.follow ds) := by
  induction cs generalizing c with
  | nil => rw [List.nil_append, Cmd.follow, Option.bind_some]
  | cons d cs ih =>
    cases c <;> cases d <;> simp only [List.cons_append, Cmd.follow, ih, Option.bind_none]
    split_ifs
    · rfl
    · rfl

/-- Every redirection is one that `parseredirs` makes. -/
def Cmd.Standard {α : Type} : Cmd α → Prop
  | exec _ => True
  | redir cmd r => cmd.Standard ∧ ∃ o : Op, o.redir r.file = some r
  | pipe left right => left.Standard ∧ right.Standard
  | list left right => left.Standard ∧ right.Standard
  | back cmd => cmd.Standard

theorem redir_fd {α : Type} {r : Redir α} {o : Op} (h : o.redir r.file = some r) :
    r.fd = 0 ∨ r.fd = 1 := by
  cases o with
  | lt =>
    have hr : _ = r := Option.some.inj h
    exact Or.inl (by rw [← hr])
  | gt =>
    have hr : _ = r := Option.some.inj h
    exact Or.inr (by rw [← hr])
  | gtgt =>
    have hr : _ = r := Option.some.inj h
    exact Or.inr (by rw [← hr])
  | _ => cases h

theorem std_lt (calls : List Call) (h : fd < 3) : std calls fd = some (fileAt calls fd) := if_pos h

theorem std_ge (calls : List Call) (h : 3 ≤ fd) : std calls fd = none := if_neg (not_lt.mpr h)

theorem std_append (calls : List Call) (d : Call) :
    std (calls ++ [d]) = fun fd => if fd < 3 then some ((d.file fd).getD (fileAt calls fd)) else none := by
  funext fd
  simp only [std, fileAt_append]

theorem std_append_of_none {d : Call} (hd : ∀ fd, d.file fd = none) (calls : List Call) :
    std (calls ++ [d]) = std calls := by
  rw [std_append]
  funext fd
  simp only [hd, std]
  rfl

theorem follow_snoc {c : Cmd Str} (h : root.follow calls = some c) (d : Call) :
    root.follow (calls ++ [d]) = c.follow [d] := by
  rw [follow_append, h, Option.bind_some]

theorem runcmd_redir_safe {cmd : Cmd Str} {r : Redir Str} (hr : ∃ o : Op, o.redir r.file = some r)
    (h : root.follow calls = some (.redir cmd r)) :
    Safe root (runcmd (.redir cmd r)) (std calls) calls none := by
  obtain ⟨o, ho⟩ := hr
  have hfd : r.fd < 3 := by
    rcases redir_fd ho with h | h
    · omega
    · omega
  have hset := settled_std calls
  unfold runcmd
  apply safe_close hset.within (std_lt calls hfd)
  have hfree : Function.update (std calls) r.fd none r.fd = none := Function.update_self ..
  have hlow : ∀ j < r.fd, Function.update (std calls) r.fd none j ≠ none := by
    intro j hj
    rw [Function.update_of_ne hj.ne, std_lt calls (hj.trans hfd)]
    exact Option.some_ne_none _
  refine ⟨?_, ?_⟩
  · intro j k w hk
    exact (hset.within.close (p := none) r.fd j k w hk).resolve_right (by simp)
  · rw [newfd_eq hfree hlow (hfd.trans (by decide))]
    show Safe root (if (r.fd : ℤ) < 0 then exit 1 else recurse (.redir r) cmd) _ calls none
    rw [if_neg (by omega)]
    have ht : Function.update (Function.update (std calls) r.fd none) r.fd
        (some (.opened r.file r.mode)) = std (calls ++ [.redir r]) := by
      rw [Function.update_idem, std_append]
      funext j
      by_cases hj : j = r.fd
      · subst hj
        rw [Function.update_self, if_pos hfd, Call.file, if_pos rfl]
        rfl
      · rw [Function.update_of_ne hj]
        simp only [Call.file, if_neg (Ne.symm hj)]
        rfl
    apply safe_recurse _ rfl ht
    · rw [follow_snoc h, Cmd.follow, if_pos rfl, Cmd.follow]
    · rw [Function.update_idem]
      intro j k w hk
      by_cases hj : j = r.fd
      · subst hj
        rw [Function.update_self] at hk
        cases hk
      · rw [Function.update_of_ne hj] at hk
        exact hset.within j k w hk

/-- The descriptors while a pipe is set up. -/
def piped (calls : List Call) (n : ℕ) : Table :=
  Function.update (Function.update (std calls) 3 (some (.pipe n false))) 4 (some (.pipe n true))

theorem sysPipe_std (calls : List Call) (n : ℕ) :
    (std calls).sysPipe n = (some (3, 4), piped calls n) := by
  have h3 : (std calls).fdalloc (.pipe n false) =
      some (3, Function.update (std calls) 3 (some (.pipe n false))) := by
    apply fdalloc_eq (std_ge calls le_rfl) _ (by decide)
    intro j hj
    rw [std_lt calls hj]
    exact Option.some_ne_none _
  have h4 : Table.fdalloc (Function.update (std calls) 3 (some (.pipe n false))) (.pipe n true) =
      some (4, piped calls n) := by
    apply fdalloc_eq _ _ (show 4 < nofile by decide)
    · rw [Function.update_of_ne (by decide), std_ge calls (by decide)]
    · intro j hj
      by_cases hj3 : j = 3
      · rw [hj3, Function.update_self]
        exact Option.some_ne_none _
      · rw [Function.update_of_ne hj3, std_lt calls (by omega)]
        exact Option.some_ne_none _
  rw [Table.sysPipe, h3]
  simp only [h4]

theorem within_piped (calls : List Call) (n : ℕ) : Within (piped calls n) calls (some n) :=
  ((settled_std calls).within.pipe 3 false).pipe 4 true

theorem piped_lt (calls : List Call) (n : ℕ) (h : fd < 3) :
    piped calls n fd = some (fileAt calls fd) := by
  rw [piped, Function.update_of_ne (by omega), Function.update_of_ne (by omega), std_lt calls h]

theorem piped_three (calls : List Call) (n : ℕ) : piped calls n 3 = some (.pipe n false) := by
  rw [piped, Function.update_of_ne (by decide), Function.update_self]

theorem piped_four (calls : List Call) (n : ℕ) : piped calls n 4 = some (.pipe n true) := by
  rw [piped, Function.update_self]

theorem close_ends {t u : Table} (h : ∀ j, j ≠ 3 → j ≠ 4 → t j = u j) (h3 : u 3 = none)
    (h4 : u 4 = none) : Function.update (Function.update t 3 none) 4 none = u := by
  funext j
  by_cases hj4 : j = 4
  · rw [hj4, Function.update_self, h4]
  · rw [Function.update_of_ne hj4]
    by_cases hj3 : j = 3
    · rw [hj3, Function.update_self, h3]
    · rw [Function.update_of_ne hj3, h j hj3 hj4]

def plugged (calls : List Call) (n fd : ℕ) (w : Bool) : Table :=
  Function.update (std calls) fd (some (.pipe n w))

/-- A side of a pipe puts its end in place of descriptor `fd` and closes the two it was made with. -/
theorem side_safe {fd fd' n : ℕ} {w : Bool} {g : Code} (hfd : fd < 3) (hfd' : 3 ≤ fd')
    (hend : piped calls n fd' = some (.pipe n w))
    (hg : Within (plugged calls n fd w) calls (some n) →
      Safe root g (plugged calls n fd w) calls (some n)) :
    Safe root (do
      let _ ← close fd
      let _ ← dup fd'
      let _ ← close 3
      let _ ← close 4
      g) (piped calls n) calls (some n) := by
  set t₁ := Function.update (piped calls n) fd none with ht₁
  set t₂ := Function.update t₁ fd (some (.pipe n w)) with ht₂
  have hw := within_piped calls n
  have hw₂ : Within t₂ calls (some n) := (hw.close fd).pipe fd w
  have hother : ∀ j, j ≠ fd → t₂ j = piped calls n j := by
    intro j hj
    rw [ht₂, ht₁, Function.update_of_ne hj, Function.update_of_ne hj]
  have hdup : t₁ fd' = some (.pipe n w) := by
    rw [ht₁, Function.update_of_ne (by omega), hend]
  have hlow : ∀ j < fd, t₁ j ≠ none := by
    intro j hj
    rw [ht₁, Function.update_of_ne hj.ne, piped_lt calls n (hj.trans hfd)]
    exact Option.some_ne_none _
  have h3 : t₂ 3 = some (.pipe n false) := by
    rw [hother 3 (by omega), piped_three]
  have h4 : Function.update t₂ 3 none 4 = some (.pipe n true) := by
    rw [Function.update_of_ne (by decide), hother 4 (by omega), piped_four]
  have ht : Function.update (Function.update t₂ 3 none) 4 none = plugged calls n fd w := by
    apply close_ends
    · intro j h3 h4
      unfold plugged
      by_cases hj : j = fd
      · rw [hj, ht₂, Function.update_self, Function.update_self]
      · rw [Function.update_of_ne hj, hother j hj, piped, Function.update_of_ne h4,
          Function.update_of_ne h3]
    · rw [plugged, Function.update_of_ne (by omega), std_ge calls le_rfl]
    · rw [plugged, Function.update_of_ne (by omega), std_ge calls (by decide)]
  have hw₄ := (hw₂.close 3).close 4
  rw [ht] at hw₄
  apply safe_close hw (piped_lt calls n hfd)
  apply safe_dup (hw.close fd) hdup (Function.update_self ..) hlow (hfd.trans (by decide))
  apply safe_close hw₂ h3
  apply safe_close (hw₂.close 3) h4
  rw [ht]
  exact hg hw₄

theorem plugged_eq {n fd : ℕ} {w : Bool} {d : Call} (hfd : fd < 3)
    (hd : ∀ j, d.file j = if j = fd then some (.pipe n w) else none) :
    plugged calls n fd w = std (calls ++ [d]) := by
  rw [std_append]
  funext j
  unfold plugged
  by_cases hj : j = fd
  · rw [hj, Function.update_self, if_pos hfd, hd, if_pos rfl]
    rfl
  · rw [Function.update_of_ne hj]
    simp only [hd, if_neg hj]
    rfl

theorem runcmd_pipe_safe {left right : Cmd Str} (h : root.follow calls = some (.pipe left right)) :
    Safe root (runcmd (.pipe left right)) (std calls) calls none := by
  unfold runcmd
  refine ⟨settled_std calls, fun n => ?_⟩
  rw [sysPipe_std]
  apply safe_fork1 (within_piped calls n)
  · apply side_safe (show 1 < 3 by decide) (by decide) (piped_four calls n)
    intro hw
    apply safe_recurse hw rfl (plugged_eq (by decide) fun _ => rfl)
    rw [follow_snoc h, Cmd.follow, Cmd.follow]
  · intro pid hpid
    rw [if_neg (by omega)]
    apply safe_fork1 (within_piped calls n)
    · apply side_safe (show 0 < 3 by decide) (by decide) (piped_three calls n)
      intro hw
      apply safe_recurse hw rfl (plugged_eq (by decide) fun _ => rfl)
      rw [follow_snoc h, Cmd.follow, Cmd.follow]
    · intro pid' hpid'
      rw [if_neg (by omega)]
      have hw := within_piped calls n
      have h4 : Function.update (piped calls n) 3 none 4 = some (.pipe n true) := by
        rw [Function.update_of_ne (by decide), piped_four]
      have ht : Function.update (Function.update (piped calls n) 3 none) 4 none = std calls := by
        apply close_ends _ (std_ge calls le_rfl) (std_ge calls (by decide))
        intro j h3 h4
        rw [piped, Function.update_of_ne h4, Function.update_of_ne h3]
      apply safe_close hw (piped_three calls n)
      apply safe_close (hw.close 3) h4
      rw [ht]
      have hset := settled_std calls
      exact ⟨hset, fun _ => ⟨hset, fun _ => hset⟩⟩

/-- Every part of the switch leaves the processes that go on as they should be. -/
theorem runcmd_safe (hc : c.Standard) (h : root.follow calls = some c) :
    Safe root (runcmd c) (std calls) calls none := by
  have hset := settled_std calls
  cases c with
  | exec argv =>
    rw [runcmd]
    split_ifs
    · exact hset
    · exact ⟨rfl, h⟩
  | redir cmd r => exact runcmd_redir_safe hc.2 h
  | pipe left right => exact runcmd_pipe_safe h
  | list left right =>
    unfold runcmd
    apply safe_fork1 hset.within
    · apply safe_recurse hset.within rfl (std_append_of_none (fun _ => rfl) calls).symm
      rw [follow_snoc h, Cmd.follow, Cmd.follow]
    · intro pid hpid
      rw [if_neg (by omega)]
      refine ⟨hset, fun _ => ?_⟩
      apply safe_recurse hset.within rfl (std_append_of_none (fun _ => rfl) calls).symm
      rw [follow_snoc h, Cmd.follow, Cmd.follow]
  | back cmd =>
    unfold runcmd
    apply safe_fork1 hset.within
    · apply safe_recurse hset.within rfl (std_append_of_none (fun _ => rfl) calls).symm
      rw [follow_snoc h, Cmd.follow, Cmd.follow]
    · intro pid hpid
      rw [if_neg (by omega)]
      exact hset

theorem Cmd.Standard.follow (hc : c.Standard) {d : Cmd Str} (h : c.follow calls = some d) :
    d.Standard := by
  induction calls generalizing c with
  | nil =>
    rw [Cmd.follow] at h
    cases h
    exact hc
  | cons e calls ih =>
    cases c <;> cases e <;> simp only [Cmd.follow, reduceCtorEq] at h
    · split_ifs at h
      exact ih hc.1 h
    · exact ih hc.1 h
    · exact ih hc.2 h
    · exact ih hc.1 h
    · exact ih hc.2 h
    · exact ih (by exact hc) h

end Xv6.Sh
