import Xv6.Sh.Grammar
import Xv6.Sh.Plumbing

/-! All processes of a command, in any interleaving. -/
namespace Xv6.Sh

open Lib

variable {cmd : Cmd Str} {s s' : State} {P : Proc} {i k : ℕ}

def Proc.Ok (cmd : Cmd Str) (P : Proc) : Prop :=
  match P.phase with
  | .shell code => Safe cmd code P.ofile P.calls P.pipe
  | .program => Settled P.ofile P.calls
  | .zombie => ∀ fd, P.ofile fd = none

theorem Proc.Ok.shell {code : Code} (h : P.Ok cmd) (hc : P.phase = .shell code) :
    Safe cmd code P.ofile P.calls P.pipe := by
  unfold Ok at h
  rwa [hc] at h

theorem Proc.Ok.program (h : P.Ok cmd) (hc : P.phase = .program) : Settled P.ofile P.calls := by
  unfold Ok at h
  rwa [hc] at h

def State.All (I : Proc → Prop) (s : State) : Prop := ∀ i P, s.procs i = some P → I P

@[simp] theorem State.procs_set (s : State) (i : ℕ) (P : Proc) :
    (s.set i P).procs = Function.update s.procs i (some P) := rfl

@[simp] theorem State.procs_remove (s : State) (i : ℕ) :
    (s.remove i).procs = Function.update s.procs i none := rfl

namespace State.All

variable {I : Proc → Prop}

theorem set (h : s.All I) (i : ℕ) (hP : I P) : (s.set i P).All I := by
  intro j Q hQ
  rw [State.procs_set] at hQ
  by_cases hj : j = i
  · rw [hj, Function.update_self] at hQ
    cases hQ
    exact hP
  · rw [Function.update_of_ne hj] at hQ
    exact h j Q hQ

theorem remove (h : s.All I) (i : ℕ) : (s.remove i).All I := by
  intro j Q hQ
  rw [State.procs_remove] at hQ
  by_cases hj : j = i
  · rw [hj, Function.update_self] at hQ
    cases hQ
  · rw [Function.update_of_ne hj] at hQ
    exact h j Q hQ

theorem mono {J : Proc → Prop} (h : s.All I) (hJ : ∀ P, I P → J P) : s.All J :=
  fun i P hP => hJ P (h i P hP)

theorem start (cmd : Cmd Str) (h : ∀ P, (State.start cmd).procs 1 = some P → I P) :
    (State.start cmd).All I := by
  intro i P hP
  by_cases hi : i = 1
  · exact h P (hi ▸ hP)
  · rw [State.start] at hP
    simp only [Function.update_of_ne hi] at hP
    cases hP

end State.All

theorem step_ok (hcmd : cmd.Standard) (h : s.All (Proc.Ok cmd)) (hst : Step s s') :
    s'.All (Proc.Ok cmd) := by
  cases hst with
  | close hi hc =>
    apply h.set
    exact ((h _ _ hi).shell hc).2
  | dup hi hc =>
    apply h.set
    exact ((h _ _ hi).shell hc).2
  | openFile hi hc =>
    apply h.set
    exact ((h _ _ hi).shell hc).2
  | pipe hi hc =>
    apply h.set
    exact ((h _ _ hi).shell hc).2 _
  | fork hi hc hj h0 =>
    have hsafe := ((h _ _ hi).shell hc).2
    apply (h.set _ _).set
    · exact hsafe.1
    · exact hsafe.2 _ h0
  | wait hi hc =>
    apply (h.set _ _).remove
    exact ((h _ _ hi).shell hc).2 _
  | waitFails hi hc =>
    apply h.set
    exact ((h _ _ hi).shell hc).2 _
  | runcmd hi hc hb =>
    obtain ⟨-, c, hb', ht, hfollow⟩ := (h _ _ hi).shell hc
    rw [hb] at hb'
    cases hb'
    apply h.set
    show Safe cmd _ _ _ none
    rw [ht]
    exact runcmd_safe (hcmd.follow hfollow) hfollow
  | exec hi hc =>
    apply h.set
    show Settled _ _
    rw [((h _ _ hi).shell hc).1]
    exact settled_std _
  | exit hi hc =>
    apply h.set
    exact fun _ => rfl
  | programMoves hi hc ht =>
    apply h.set
    unfold Proc.Ok
    simp only [hc]
    intro fd k w hk
    obtain ⟨fd', hfd'⟩ := ht fd _ hk
    exact (h _ _ hi).program hc fd' k w hfd'
  | programForks hi hc =>
    apply h.set
    unfold Proc.Ok
    simp only [hc]
    exact (h _ _ hi).program hc
  | programExits hi hc =>
    apply h.set
    exact fun _ => rfl

/-- In every run the descriptors of a process are those of its place in the command. -/
theorem reachable_ok (hcmd : cmd.Standard) (h : (system cmd).Reachable s) : s.All (Proc.Ok cmd) := by
  refine h.invariant ?_ fun _ _ _ => step_ok hcmd
  rintro _ rfl
  apply State.All.start
  rintro P hP
  cases hP
  show Safe cmd (runcmd cmd) (std []) [] none
  exact runcmd_safe hcmd (by rw [Cmd.follow])

section Pipes

variable {pipes : List (List Call)}

theorem Branch.pipe_of_call {b : Branch} {p : Option ℕ} {w : Bool}
    (h : b.call p = some (side w k)) : p = some k := by
  cases b <;> cases w <;> simp_all [Branch.call, side]

/-- A process is in a side of a pipe only if it is in the calls in which the pipe was made. -/
structure Proc.Joined (pipes : List (List Call)) (P : Proc) : Prop where
  calls : ∀ j w k, P.calls[j]? = some (side w k) → pipes[k]? = some (P.calls.take j)
  pipe : ∀ k, P.pipe = some k → pipes[k]? = some P.calls

theorem Proc.Joined.congr {Q : Proc} (h : P.Joined pipes) (hc : Q.calls = P.calls)
    (hp : Q.pipe = P.pipe) : Q.Joined pipes := by
  constructor
  · rw [hc]
    exact h.calls
  · rw [hc, hp]
    exact h.pipe

theorem Proc.Joined.append (h : P.Joined pipes) (new : List (List Call)) :
    P.Joined (pipes ++ new) := by
  constructor
  · intro j w k hj
    have hk := h.calls j w k hj
    rwa [List.getElem?_append_left (List.getElem?_eq_some_iff.mp hk).1]
  · intro k hk
    have hk' := h.pipe k hk
    rwa [List.getElem?_append_left (List.getElem?_eq_some_iff.mp hk').1]

theorem step_joined (h : s.All (Proc.Joined s.pipes)) (hst : Step s s') :
    s'.All (Proc.Joined s'.pipes) := by
  cases hst with
  | close hi hc | dup hi hc | openFile hi hc | waitFails hi hc | exec hi hc | exit hi hc
  | programMoves hi hc | programExits hi hc | programForks hi hc =>
    exact h.set _ ((h _ _ hi).congr rfl rfl)
  | fork hi hc =>
    apply (h.set _ _).set
    · exact (h _ _ hi).congr rfl rfl
    · exact (h _ _ hi).congr rfl rfl
  | wait hi hc =>
    apply (h.set _ _).remove
    exact (h _ _ hi).congr rfl rfl
  | @pipe i P k hi hc =>
    have hall : s.All (Proc.Joined (s.pipes ++ [P.calls])) := h.mono fun Q hQ => hQ.append _
    apply hall.set
    constructor
    · exact (hall _ _ hi).calls
    · intro k' hk'
      cases hk'
      rw [List.getElem?_append_right le_rfl, Nat.sub_self]
      rfl
  | @runcmd i P b cmd k c hi hc hb =>
    have hP := h _ _ hi
    apply h.set
    constructor
    · intro j w k' hj
      rcases Nat.lt_or_ge j P.calls.length with hlt | hge
      · rw [List.getElem?_append_left hlt] at hj
        rw [hP.calls j w k' hj, List.take_append_of_le_length hlt.le]
      · obtain ⟨hj', hget⟩ := List.getElem?_eq_some_iff.mp hj
        rw [List.length_append, List.length_singleton] at hj'
        have hjl : j = P.calls.length := by omega
        subst hjl
        rw [List.getElem_concat_length rfl] at hget
        rw [List.take_left]
        exact hP.pipe k' (Branch.pipe_of_call (hget ▸ hb))
    · exact fun k' hk' => absurd hk' (Option.some_ne_none _).symm

/-- In every run the sides of a pipe descend from the process that made it. -/
theorem reachable_joined (h : (system cmd).Reachable s) : s.All (Proc.Joined s.pipes) := by
  refine h.invariant (I := fun s => s.All (Proc.Joined s.pipes)) ?_ fun _ _ _ => step_joined
  rintro _ rfl
  apply State.All.start
  rintro P hP
  cases hP
  constructor
  · exact fun j w k hj => absurd hj (by simp)
  · exact fun k hk => absurd hk (Option.some_ne_none _).symm

end Pipes

/-- The next step is one of those that set up a pipe. -/
def plumbs : Code → Bool
  | .op (.close _) _ => true
  | .op (.dup _) _ => true
  | .op .fork _ => true
  | .op (.runcmd _ _) _ => true
  | _ => false

/-- The process is between the call of `pipe` that made pipe `k` and its last `close`, or the call of
`runcmd` for its side. -/
def Proc.Plumbs (P : Proc) (k : ℕ) : Prop :=
  P.pipe = some k ∧ ∃ code, P.phase = .shell code ∧ plumbs code = true

/-- Nothing but the sides of a pipe has its ends, each side one. -/
theorem Proc.Ok.holds {fd : ℕ} {w : Bool} (h : P.Ok cmd) (hk : P.ofile fd = some (.pipe k w)) :
    side w k ∈ P.calls ∨ P.Plumbs k := by
  cases hc : P.phase with
  | shell code =>
    have hs := h.shell hc
    cases code with
    | ret e => exact e.elim
    | op o g =>
      cases o with
      | close | dup | fork | runcmd => exact (hs.1 fd k w hk).imp_right fun hp => ⟨hp, _, hc, rfl⟩
      | openFile | pipe | wait => exact Or.inl (hs.1 fd k w hk)
      | exit => exact Or.inl (hs fd k w hk)
      | exec =>
        rw [hs.1] at hk
        exact Or.inl (settled_std _ fd k w hk)
  | program => exact Or.inl (h.program hc fd k w hk)
  | zombie =>
    unfold Ok at h
    rw [hc] at h
    rw [h fd] at hk
    cases hk

/-- A process that reaches `exec` has exactly descriptors 0, 1 and 2, each from the innermost construct
around its command that sets it. A pipe end is held only by the side of the pipe that uses it and,
while the pipe is set up, by the processes that do this; the two sides of a pipe are in the same calls
of `runcmd`. So once a side has exited and the pipe is set up, its end is closed. -/
theorem pipeline_plumbing (cmd : Cmd Str) (hcmd : cmd.Standard) (s : State)
    (h : (system cmd).Reachable s) :
    (∀ i P argv g, s.procs i = some P → P.phase = .shell (.op (.exec argv) g) →
      cmd.follow P.calls = some (.exec argv) ∧
      ∀ fd, P.ofile fd = if fd < 3 then some (fileAt P.calls fd) else none) ∧
    (∀ i P fd k w, s.procs i = some P → P.ofile fd = some (.pipe k w) →
      side w k ∈ P.calls ∨ P.Plumbs k) ∧
    (∀ i P j w i' P' j' w' k, s.procs i = some P → s.procs i' = some P' →
      P.calls[j]? = some (side w k) → P'.calls[j']? = some (side w' k) →
      P.calls.take j = P'.calls.take j') ∧
    ∀ k w, (∀ i P, s.procs i = some P → P.phase ≠ .zombie → side w k ∉ P.calls ∧ ¬ P.Plumbs k) →
      ∀ i P fd, s.procs i = some P → P.ofile fd ≠ some (.pipe k w) := by
  have hok := reachable_ok hcmd h
  have hjoined := reachable_joined h
  refine ⟨?_, ?_, ?_, ?_⟩
  · intro i P argv g hi hc
    obtain ⟨ht, hf⟩ := (hok i P hi).shell hc
    refine ⟨hf, fun fd => ?_⟩
    rw [ht]
    rfl
  · intro i P fd k w hi hk
    exact (hok i P hi).holds hk
  · intro i P j w i' P' j' w' k hi hi' hj hj'
    have h₁ := (hjoined i P hi).calls j w k hj
    have h₂ := (hjoined i' P' hi').calls j' w' k hj'
    exact Option.some.inj (h₁.symm.trans h₂)
  · intro k w hnone i P fd hi hk
    by_cases hz : P.phase = .zombie
    · have := hok i P hi
      unfold Proc.Ok at this
      rw [hz] at this
      rw [this fd] at hk
      cases hk
    · obtain ⟨h₁, h₂⟩ := hnone i P hi hz
      exact ((hok i P hi).holds hk).elim h₁ h₂

def lsWcToFile : Cmd Str :=
  .pipe (.exec [lit "ls"]) (.redir (.exec [lit "wc"]) ⟨lit "out", oWronly ||| oCreate ||| oTrunc, 1⟩)

/-- The process of `wc` reads from the pipe and writes to the file. -/
theorem pipeline_plumbing_wc : lsWcToFile.Standard ∧ ∃ s P, (system lsWcToFile).Reachable s ∧
    s.procs 3 = some P ∧ P.ofile 0 = some (.pipe 0 false) ∧
    P.ofile 1 = some (.opened (lit "out") (oWronly ||| oCreate ||| oTrunc)) ∧ P.ofile 4 = none := by
  have hstd : lsWcToFile.Standard := ⟨trivial, trivial, .gt, rfl⟩
  have h : (system lsWcToFile).Reachable (.start lsWcToFile) := .init rfl
  have h := h.step (Step.pipe (i := 1) rfl rfl)
  have h := h.step (Step.fork (i := 1) (j := 2) rfl rfl rfl (by decide))
  have h := h.step (Step.fork (i := 1) (j := 3) rfl rfl rfl (by decide))
  have h := h.step (Step.close (i := 3) rfl rfl)
  have h := h.step (Step.dup (i := 3) rfl rfl)
  have h := h.step (Step.close (i := 3) rfl rfl)
  have h := h.step (Step.close (i := 3) rfl rfl)
  have h := h.step (Step.runcmd (i := 3) rfl rfl rfl)
  have h := h.step (Step.close (i := 3) rfl rfl)
  have h := h.step (Step.openFile (i := 3) rfl rfl)
  have h := h.step (Step.runcmd (i := 3) rfl rfl rfl)
  have hfiles := ((pipeline_plumbing lsWcToFile hstd _ h).1 3 _ _ _ rfl rfl).2
  exact ⟨hstd, _, _, h, rfl, hfiles 0, hfiles 1, hfiles 4⟩

end Xv6.Sh
