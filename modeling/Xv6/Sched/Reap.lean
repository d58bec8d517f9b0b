import Xv6.Sched.Family

/-! Zombies. A process that has exited stays in its entry, with its pid and status, until one call of
`wait` returns it. -/
namespace Xv6.Sched

open Proc (ProcState)
open Pc Kernel

variable {N : ℕ} {σ K : Type} {client : Client σ K} {init : σ → Prop} {s t : Kernel N σ K}

def Kernel.exit (s : Kernel N σ K) (p : Slot) : Exit :=
  ⟨p, s.hist.births p, (s.proc p).pid, (s.proc p).xstate⟩

def History.reaped (h : History) : List Exit := h.waits.map Prod.fst

structure Zombies (s : Kernel N σ K) : Prop where
  exits : s.hist.exits.Nodup
  waits : s.hist.reaped.Nodup
  reaped : ∀ e ∈ s.hist.reaped, e ∈ s.hist.exits
  pending : ∀ e ∈ s.hist.exits, e ∉ s.hist.reaped →
    (s.proc e.slot).state = .zombie ∧ s.exit e.slot = e
  zombie : ∀ q, (s.proc q).state = .zombie → s.exit q ∈ s.hist.exits ∧ s.exit q ∉ s.hist.reaped
  past : ∀ e ∈ s.hist.exits, e.n ≤ s.hist.births e.slot ∧
    (e.n = s.hist.births e.slot →
      (s.proc e.slot).state = .zombie ∨ (s.proc e.slot).state = .unused)

namespace Zombies

theorem frame (h : Zombies s)
    (hz : ∀ q, (t.proc q).state = .zombie → (s.proc q).state = .zombie)
    (hz' : ∀ q, (s.proc q).state = .zombie → (t.proc q).state = .zombie ∧
      (t.proc q).pid = (s.proc q).pid ∧ (t.proc q).xstate = (s.proc q).xstate)
    (hu : ∀ q, (s.proc q).state = .unused → (t.proc q).state = .unused)
    (hh : t.hist.life = s.hist.life) : Zombies t := by
  obtain ⟨hb, he, hw⟩ : t.hist.births = s.hist.births ∧ t.hist.exits = s.hist.exits ∧
      t.hist.waits = s.hist.waits := by simpa [History.life] using hh
  have hr : t.hist.reaped = s.hist.reaped := by rw [History.reaped, hw, History.reaped]
  have hexit : ∀ q, (s.proc q).state = .zombie → t.exit q = s.exit q := by
    intro q hq
    obtain ⟨-, hpid, hx⟩ := hz' q hq
    rw [Kernel.exit, Kernel.exit, hb, hpid, hx]
  constructor
  · rw [he]
    exact h.exits
  · rw [hr]
    exact h.waits
  · rw [hr, he]
    exact h.reaped
  · rw [hr, he]
    intro e hm hn
    obtain ⟨hs, hex⟩ := h.pending e hm hn
    exact ⟨(hz' _ hs).1, (hexit _ hs).trans hex⟩
  · rw [hr, he]
    intro q hq
    rw [hexit q (hz q hq)]
    exact h.zombie q (hz q hq)
  · rw [he, hb]
    intro e hm
    refine ⟨(h.past e hm).1, fun hn => ?_⟩
    exact ((h.past e hm).2 hn).imp (fun hs => (hz' _ hs).1) (hu _)

theorem update (h : Zombies s) {i : Slot} {r : Process K}
    (hproc : t.proc = Function.update s.proc i r) (hi : (s.proc i).state ≠ .zombie)
    (hr : r.state ≠ .zombie) (hu : (s.proc i).state = .unused → r.state = .unused)
    (hh : t.hist.life = s.hist.life) : Zombies t := by
  have hself : t.proc i = r := by rw [hproc, Function.update_self]
  have hne : ∀ q, q ≠ i → t.proc q = s.proc q := fun q hq => by rw [hproc, Function.update_of_ne hq]
  refine h.frame (fun q hq => ?_) (fun q hq => ?_) (fun q hq => ?_) hh
  · have hqi : q ≠ i := by
      rintro rfl
      rw [hself] at hq
      exact hr hq
    rwa [hne q hqi] at hq
  · have hqi : q ≠ i := by
      rintro rfl
      exact hi hq
    rw [hne q hqi]
    exact ⟨hq, rfl, rfl⟩
  · by_cases hqi : q = i
    · subst hqi
      rw [hself]
      exact hu hq
    · rwa [hne q hqi]

theorem exit_of_ne {i : Slot} {r : Process K} (hproc : t.proc = Function.update s.proc i r)
    (hb : ∀ q, q ≠ i → t.hist.births q = s.hist.births q) {q : Slot} (hq : q ≠ i) :
    t.proc q = s.proc q ∧ t.exit q = s.exit q := by
  have hpq : t.proc q = s.proc q := by rw [hproc, Function.update_of_ne hq]
  exact ⟨hpq, by rw [Kernel.exit, Kernel.exit, hb q hq, hpq]⟩

theorem birth (h : Zombies s) {i : Slot} {r : Process K} (hs : (s.proc i).state = .unused)
    (hproc : t.proc = Function.update s.proc i r) (hr : r.state = .used)
    (hh : t.hist.life = (Function.update s.hist.births i (s.hist.births i + 1), s.hist.exits,
      s.hist.waits)) : Zombies t := by
  obtain ⟨hb, he, hw⟩ : t.hist.births = Function.update s.hist.births i (s.hist.births i + 1) ∧
      t.hist.exits = s.hist.exits ∧ t.hist.waits = s.hist.waits := by
    simpa [History.life] using hh
  have hre : t.hist.reaped = s.hist.reaped := by rw [History.reaped, hw, History.reaped]
  have hne : ∀ q, q ≠ i → t.proc q = s.proc q ∧ t.exit q = s.exit q :=
    fun q hq => exit_of_ne hproc (fun q hq => by rw [hb, Function.update_of_ne hq]) hq
  constructor
  · rw [he]
    exact h.exits
  · rw [hre]
    exact h.waits
  · rw [hre, he]
    exact h.reaped
  · rw [hre, he]
    intro e hm hn
    obtain ⟨hz, hex⟩ := h.pending e hm hn
    have hei : e.slot ≠ i := by
      intro heq
      rw [heq, hs] at hz
      cases hz
    rw [(hne _ hei).1, (hne _ hei).2]
    exact ⟨hz, hex⟩
  · rw [hre, he]
    intro q hq
    have hqi : q ≠ i := by
      rintro rfl
      rw [hproc, Function.update_self, hr] at hq
      cases hq
    rw [(hne q hqi).1] at hq
    rw [(hne q hqi).2]
    exact h.zombie q hq
  · rw [he, hb]
    intro e hm
    obtain ⟨hle, hpast⟩ := h.past e hm
    by_cases hei : e.slot = i
    · rw [hei] at hle ⊢
      rw [Function.update_self]
      exact ⟨by omega, fun hn => by omega⟩
    · rw [Function.update_of_ne hei, (hne _ hei).1]
      exact ⟨hle, hpast⟩

/-- A process that exits becomes a zombie with its own status. -/
theorem exits_step (h : Zombies s) {p : Slot} {status : ℤ} (hs : (s.proc p).state = .running)
    (hproc : t.proc = Function.update s.proc p { s.proc p with xstate := status, state := .zombie })
    (hh : t.hist.life = (s.hist.births,
      s.hist.exits ++ [⟨p, s.hist.births p, (s.proc p).pid, status⟩], s.hist.waits)) :
    Zombies t := by
  obtain ⟨hb, he, hw⟩ : t.hist.births = s.hist.births ∧
      t.hist.exits = s.hist.exits ++ [⟨p, s.hist.births p, (s.proc p).pid, status⟩] ∧
      t.hist.waits = s.hist.waits := by
    simpa [History.life] using hh
  have hself : t.proc p = { s.proc p with xstate := status, state := .zombie } := by
    rw [hproc, Function.update_self]
  have hme : t.exit p = ⟨p, s.hist.births p, (s.proc p).pid, status⟩ := by
    rw [Kernel.exit, hb, hself]
  rw [← hme] at he
  have hre : t.hist.reaped = s.hist.reaped := by rw [History.reaped, hw, History.reaped]
  have hne : ∀ q, q ≠ p → t.proc q = s.proc q ∧ t.exit q = s.exit q :=
    fun q hq => exit_of_ne hproc (fun q _ => by rw [hb]) hq
  have hnew : t.exit p ∉ s.hist.exits := by
    intro hm
    rw [hme] at hm
    rcases (h.past _ hm).2 rfl with hz | hz
    · rw [show (s.proc p).state = .zombie from hz] at hs
      cases hs
    · rw [show (s.proc p).state = .unused from hz] at hs
      cases hs
  constructor
  · rw [he]
    exact h.exits.append (List.nodup_singleton _) (by simpa using hnew)
  · rw [hre]
    exact h.waits
  · rw [hre, he]
    exact fun e hm => List.mem_append_left _ (h.reaped e hm)
  · rw [hre, he]
    intro e hm hn
    rcases List.mem_append.mp hm with hm | hm
    · obtain ⟨hz, hex⟩ := h.pending e hm hn
      have hep : e.slot ≠ p := by
        intro heq
        rw [heq, hs] at hz
        cases hz
      rw [(hne _ hep).1, (hne _ hep).2]
      exact ⟨hz, hex⟩
    · obtain rfl := List.mem_singleton.mp hm
      exact ⟨by rw [Kernel.exit, hself], rfl⟩
  · rw [hre, he]
    intro q hq
    by_cases hqp : q = p
    · subst hqp
      exact ⟨by simp, fun hm => hnew (h.reaped _ hm)⟩
    · rw [(hne q hqp).1] at hq
      rw [(hne q hqp).2]
      exact ⟨List.mem_append_left _ (h.zombie q hq).1, (h.zombie q hq).2⟩
  · rw [he, hb]
    intro e hm
    rcases List.mem_append.mp hm with hm | hm
    · refine ⟨(h.past e hm).1, fun hn => ?_⟩
      by_cases hep : e.slot = p
      · rw [hep, hself]
        exact Or.inl rfl
      · rw [(hne _ hep).1]
        exact (h.past e hm).2 hn
    · obtain rfl := List.mem_singleton.mp hm
      rw [hme]
      exact ⟨le_rfl, fun _ => Or.inl (by rw [hself])⟩

theorem reap (h : Zombies s) {p i : Slot} (hs : (s.proc i).state = .zombie)
    (hproc : t.proc = Function.update s.proc i (s.proc i).free)
    (hh : t.hist.life = (s.hist.births, s.hist.exits, s.hist.waits ++ [(s.exit i, p)])) :
    Zombies t := by
  obtain ⟨hb, he, hw⟩ : t.hist.births = s.hist.births ∧ t.hist.exits = s.hist.exits ∧
      t.hist.waits = s.hist.waits ++ [(s.exit i, p)] := by
    simpa [History.life] using hh
  have hre : t.hist.reaped = s.hist.reaped ++ [s.exit i] := by
    rw [History.reaped, hw, List.map_append, History.reaped]
    rfl
  have hself : t.proc i = (s.proc i).free := by rw [hproc, Function.update_self]
  have hne : ∀ q, q ≠ i → t.proc q = s.proc q ∧ t.exit q = s.exit q :=
    fun q hq => exit_of_ne hproc (fun q _ => by rw [hb]) hq
  obtain ⟨hin, hout⟩ := h.zombie i hs
  constructor
  · rw [he]
    exact h.exits
  · rw [hre]
    exact h.waits.append (List.nodup_singleton _) (by simpa using hout)
  · rw [hre, he]
    intro e hm
    rcases List.mem_append.mp hm with hm | hm
    · exact h.reaped e hm
    · rwa [List.mem_singleton.mp hm]
  · rw [hre, he]
    intro e hm hn
    obtain ⟨hn₁, hn₂⟩ : e ∉ s.hist.reaped ∧ e ≠ s.exit i := by simpa using hn
    obtain ⟨hz, hex⟩ := h.pending e hm hn₁
    have hei : e.slot ≠ i := by
      intro heq
      rw [heq] at hex
      exact hn₂ hex.symm
    rw [(hne _ hei).1, (hne _ hei).2]
    exact ⟨hz, hex⟩
  · rw [hre, he]
    intro q hq
    have hqi : q ≠ i := by
      rintro rfl
      rw [hself] at hq
      cases hq
    rw [(hne q hqi).1] at hq
    rw [(hne q hqi).2]
    refine ⟨(h.zombie q hq).1, ?_⟩
    rw [List.mem_append, List.mem_singleton]
    rintro (hm | hm)
    · exact (h.zombie q hq).2 hm
    · exact hqi (congrArg Exit.slot hm)
  · rw [he, hb]
    intro e hm
    refine ⟨(h.past e hm).1, fun hn => ?_⟩
    by_cases hei : e.slot = i
    · rw [hei, hself]
      exact Or.inr rfl
    · rw [(hne _ hei).1]
      exact (h.past e hm).2 hn

theorem of_fate (hc : Control client.holds s) (hf : Forks s) (h : Zombies s) (ht : Fate s t) :
    Zombies t := by
  cases ht with
  | quiet hq hh =>
    refine h.frame (fun q => ((hq q).state_iff not_active_zombie).mp) (fun q hs => ?_)
      (fun q => ((hq q).state_iff not_active_unused).mpr) hh
    exact ⟨((hq q).state_iff not_active_zombie).mpr hs, (hq q).pid, (hq q).xstate⟩
  | alloc c p i x k hpc hs hproc hh => exact h.birth hs hproc rfl hh
  | forkFail c p np x hpc hproc hh =>
    have hok := hc.ok c
    rw [hpc, Ok] at hok
    have hs := hf.of_code hpc rfl (by simp [hok.1])
    exact h.update hproc (by rw [hs]; simp) (by rintro ⟨⟩) (fun _ => rfl) hh
  | setParent c p np pid x hpc hproc hh =>
    have hok := hc.ok c
    rw [hpc, Ok] at hok
    have hs := hf.of_code hpc rfl (by simp [hok.1])
    exact h.update hproc (by rw [hs]; simp) (by rw [hs]; simp) id hh
  | setRunnable c np pid x hpc hproc hh =>
    have hok := hc.ok c
    rw [hpc, Ok] at hok
    have hs := hf.of_code hpc rfl hok.1
    exact h.update hproc (by rw [hs]; simp) (by simp) (by rw [hs]; simp) hh
  | reparent c p status i hpc hi hproc hh hl hk =>
    have hsame : ∀ q, (t.proc q).state = (s.proc q).state ∧ (t.proc q).pid = (s.proc q).pid ∧
        (t.proc q).xstate = (s.proc q).xstate := by
      intro q
      rw [hproc]
      by_cases hqi : q = i
      · simp [hqi]
      · simp [hqi]
    refine h.frame (fun q => ?_) (fun q hs => ?_) (fun q => ?_) hh
    · rw [(hsame q).1]
      exact id
    · exact ⟨(hsame q).1.trans hs, (hsame q).2⟩
    · rw [(hsame q).1]
      exact id
  | zombie c p status hpc hproc hh =>
    have hok := hc.ok c
    rw [hpc, Ok] at hok
    have hrun : (s.proc p).state = .running := by
      simpa [hpc, expects] using hc.state c p (proc_of_agent hok)
    exact h.exits_step hrun hproc hh
  | waitFree c p i x hpc hs hproc hh => exact h.reap hs hproc hh

end Zombies

/-- In every run the zombies are the processes that have exited and not been reaped. -/
theorem reachable_zombies (h : (machine N client init).Reachable s) : Zombies s := by
  apply h.invariant (I := Zombies)
  · intro s hs
    have hexits : s.hist.exits = [] := by rw [Initial.hist hs]
    have hwaits : s.hist.reaped = [] := by rw [Initial.hist hs]; rfl
    have hz : ∀ q, (s.proc q).state ≠ .zombie := by
      intro q
      by_cases hi : q = initproc
      · rw [hi, Initial.first hs]
        simp
      · rw [(Initial.others hs q hi).1]
        simp
    refine ⟨?_, ?_, ?_, ?_, fun q hq => (hz q hq).elim, ?_⟩
    · simp [hexits]
    · simp [hwaits]
    · simp [hwaits]
    · simp [hexits]
    · simp [hexits]
  · intro s t hr hs hst
    obtain ⟨hc, hf⟩ := reachable_control hr
    exact hs.of_fate hc hf (hst.fate hc)

end Xv6.Sched
