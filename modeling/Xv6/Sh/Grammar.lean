import Xv6.Sh.Parser

/-! The grammar of the shell, over token sequences. -/
namespace Xv6.Sh

inductive Redirs : List Token → List (Redir Str) → Prop
  | nil : Redirs [] []
  | cons {o : Op} {file : Str} {r : Redir Str} {w : List Token} {rs : List (Redir Str)}
      (h : o.redir file = some r) (ht : Redirs w rs) : Redirs (.op o :: .word file :: w) (r :: rs)

/-- `(word redir*)*`, with the words and the redirections apart. -/
inductive Args : List Token → List Str → List (Redir Str) → Prop
  | nil : Args [] [] []
  | cons {a : Str} {w w' : List Token} {argv : List Str} {rs rs' : List (Redir Str)}
      (h : Redirs w rs) (ht : Args w' argv rs') : Args (.word a :: (w ++ w')) (a :: argv) (rs ++ rs')

inductive Nonterminal
  | line | pipe | exec
  deriving DecidableEq

/-- The productions of the grammar with the trees that they stand for:
`line := pipe '&'* [';' line]`, `pipe := exec ['|' pipe]` and
`exec := '(' line ')' redir* | redir* (word redir*)*`. -/
inductive Derives : Nonterminal → List Token → Cmd Str → Prop
  | line {w : List Token} {c : Cmd Str} (n : ℕ) (h : Derives .pipe w c) :
      Derives .line (w ++ List.replicate n (.op .amp)) (Cmd.back^[n] c)
  | list {w w' : List Token} {c c' : Cmd Str} (n : ℕ) (h : Derives .pipe w c)
      (h' : Derives .line w' c') :
      Derives .line (w ++ List.replicate n (.op .amp) ++ .op .semi :: w') (.list (Cmd.back^[n] c) c')
  | pipe {w : List Token} {c : Cmd Str} (h : Derives .exec w c) : Derives .pipe w c
  | pipes {w w' : List Token} {c c' : Cmd Str} (h : Derives .exec w c) (h' : Derives .pipe w' c') :
      Derives .pipe (w ++ .op .pipe :: w') (.pipe c c')
  | block {w w' : List Token} {c : Cmd Str} {rs : List (Redir Str)} (h : Derives .line w c)
      (h' : Redirs w' rs) :
      Derives .exec (.op .lparen :: (w ++ .op .rparen :: w')) (rs.foldl .redir c)
  | simple {w w' : List Token} {argv : List Str} {rs rs' : List (Redir Str)} (h : Redirs w rs)
      (h' : Args w' argv rs') (hlen : argv.length ≤ maxArgs - 1) :
      Derives .exec (w ++ w') ((rs ++ rs').foldl .redir (.exec argv))

section Commands

variable {α β : Type} {P : α → Prop} {f : α → β}

/-- Every string of the command satisfies `P`. -/
def Cmd.All (P : α → Prop) : Cmd α → Prop
  | exec argv => ∀ a ∈ argv, P a
  | redir cmd r => cmd.All P ∧ P r.file
  | pipe left right => left.All P ∧ right.All P
  | list left right => left.All P ∧ right.All P
  | back cmd => cmd.All P

theorem Cmd.All.foldl_redir {rs : List (Redir α)} {c : Cmd α} (hc : c.All P)
    (h : ∀ r ∈ rs, P r.file) : (rs.foldl .redir c).All P := by
  induction rs generalizing c with
  | nil => exact hc
  | cons r rs ih =>
    rw [List.forall_mem_cons] at h
    exact ih ⟨hc, h.1⟩ h.2

theorem Cmd.All.back {c : Cmd α} (hc : c.All P) (n : ℕ) : (Cmd.back^[n] c).All P := by
  induction n generalizing c with
  | zero => exact hc
  | succ n ih => exact ih hc

theorem Cmd.map_foldl_redir (rs : List (Redir α)) (c : Cmd α) :
    (rs.foldl .redir c).map f = (rs.map (Redir.map f)).foldl .redir (c.map f) := by
  induction rs generalizing c with
  | nil => rfl
  | cons r rs ih => exact ih _

theorem Cmd.map_back (n : ℕ) (c : Cmd α) : (Cmd.back^[n] c).map f = Cmd.back^[n] (c.map f) := by
  induction n generalizing c with
  | zero => rfl
  | succ n ih => exact ih _

theorem Cmd.addArg_foldl_redir (a : α) (rs : List (Redir α)) (argv : List α) :
    (rs.foldl Cmd.redir (.exec argv)).addArg a = rs.foldl .redir (.exec (argv ++ [a])) := by
  have hfold : ∀ c : Cmd α, (rs.foldl .redir c).addArg a = rs.foldl .redir (c.addArg a) := by
    induction rs with
    | nil => exact fun _ => rfl
    | cons r rs ih => exact fun c => ih _
  exact hfold _

theorem Cmd.map_addArg (a : α) (c : Cmd α) :
    (c.addArg a).map f = (c.map f).addArg (f a) := by
  induction c with
  | exec argv => simp [Cmd.addArg, Cmd.map]
  | redir c r ih => rw [Cmd.addArg, Cmd.map, Cmd.map, Cmd.addArg, ih]
  | _ => rfl

theorem Op.redir_map (o : Op) (a : α) : o.redir (f a) = (o.redir a).map (Redir.map f) := by
  cases o <;> rfl

theorem Op.redir_of_char {o : Op} (h : o.char ∈ lit "<>") (a : α) :
    ∃ r, o.redir a = some r ∧ r.file = a := by
  cases o with
  | lt | gt | gtgt => exact ⟨_, rfl, rfl⟩
  | _ => exact absurd h (by decide)

end Commands

end Xv6.Sh
