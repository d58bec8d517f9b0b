import Xv6.Sched.Ready

/-! Parents. `exit` and `wait` go through the table with `wait_lock` held, and a process that exits
has given away its children by the time it is a zombie. -/
namespace Xv6.Sched

open Proc (ProcState)
open Pc Kernel

variable {N : ℕ} {σ K : Type} {client : Client σ K} {init : σ → Prop} {s t : Kernel N σ K}
  {c d : Fin N} {p q : Slot} {f : K → ℕ → Bool} {me : Option Slot} {k k' : Pc K}

/-- How far `exit` or `wait` has come through the table, with `wait_lock` held. -/
inductive Stage where
  | none
  | exit (p : Slot) (i : ℕ)
  | wait (p : Slot) (i : ℕ) (havekids : Bool)
  | child (p i : Slot)

def Pc.stage : Pc K → Stage
  | acquire _ k | release _ k | releaseLk _ k | wakeup _ _ k | wakeOne _ _ k => k.stage
  | reparent p _ i => .exit p i
  | zombie p _ => .exit p nproc
  | waitScan p i kids _ => .wait p i kids
  | waitOne p i _ => .child p i
  | waitKilled p _ => .wait p nproc true
  | _ => .none

/-- `exit` has given away the children in the entries before `i`, `wait` has found no zombie among
them, and looks at a child of the caller. -/
def Stage.Claims (proc : Slot → Process K) : Stage → Prop
  | .none => True
  | .exit p i => p ≠ initproc ∧ ∀ q : Slot, (q : ℕ) < i → (proc q).parent ≠ some p
  | .wait p i kids => ∀ q : Slot, (q : ℕ) < i → (proc q).parent = some p →
      (proc q).state ≠ .zombie ∧ kids = true
  | .child p i => (proc i).parent = some p ∧
      ∀ q : Slot, q < i → (proc q).parent = some p → (proc q).state ≠ .zombie

theorem Pc.Starts.claims {proc : Slot → Process K} (h : k.Starts) : k.stage.Claims proc := by
  cases k with
  | reparent p status i =>
    refine ⟨h.1, fun q hq => ?_⟩
    rw [h.2] at hq
    omega
  | waitScan p i kids x =>
    intro q hq
    rw [show i = 0 from h] at hq
    omega
  | setParent | client => trivial
  | _ => exact h.elim

theorem Pc.holds_of_stage (hok : k.Ok f me) (h : k.stage ≠ .none) : k.holdsLk f .wait = true := by
  induction k with
  | acquire p k ih => exact ih hok.2.2.2.2 h
  | release p k ih => exact ih hok.2.2 h
  | releaseLk l k ih => simp [holdsLk, ih hok.2.2.2 h]
  | wakeup chan j k ih => exact ih hok.ok.1 h
  | wakeOne chan j k ih => exact ih hok.1.ok.1 h
  | reparent | zombie | waitScan | waitOne | waitKilled => rfl
  | _ => exact (h rfl).elim

/-- Parents stay as they are, and no process becomes a zombie. -/
structure Keeps (s t : Kernel N σ K) : Prop where
  parent : ∀ q, (t.proc q).parent = (s.proc q).parent
  zombie : ∀ q, (t.proc q).state = .zombie → (s.proc q).state = .zombie

theorem Keeps.of_eq (h : t.proc = s.proc) : Keeps s t := by
  constructor
  · rw [h]
    exact fun _ => rfl
  · rw [h]
    exact fun _ => id

theorem Keeps.of_ne (i : Slot) (hne : ∀ q, q ≠ i → t.proc q = s.proc q)
    (hp : (t.proc i).parent = (s.proc i).parent)
    (hz : (t.proc i).state = .zombie → (s.proc i).state = .zombie) : Keeps s t := by
  constructor
  · intro q
    by_cases hq : q = i
    · rw [hq]
      exact hp
    · rw [hne q hq]
  · intro q
    by_cases hq : q = i
    · rwa [hq]
    · rw [hne q hq]
      exact id

theorem Stage.Claims.mono {st : Stage} (h : st.Claims s.proc) (hst : Keeps s t) :
    st.Claims t.proc := by
  cases st with
  | none => trivial
  | exit p i =>
    refine ⟨h.1, fun q hq => ?_⟩
    rw [hst.parent]
    exact h.2 q hq
  | wait p i kids =>
    intro q hq hpar
    rw [hst.parent] at hpar
    obtain ⟨hne, hk⟩ := h q hq hpar
    exact ⟨fun hz => hne (hst.zombie q hz), hk⟩
  | child p i =>
    refine ⟨(hst.parent i).trans h.1, fun q hq hpar hz => ?_⟩
    rw [hst.parent] at hpar
    exact h.2 q hq hpar (hst.zombie q hz)

/-- What holds of parents, and of the code that changes them. -/
structure Family (s : Kernel N σ K) : Prop where
  parents : Parents s
  ready : Readies s
  claims : ∀ c, (s.code c).stage.Claims s.proc

theorem claims_goto (hc : Control client.holds s) (h : ∀ d, (s.code d).stage.Claims s.proc)
    (hth : t.thread = (s.goto c k).thread) (hcpu : t.cpu = (s.goto c k).cpu) (hk : k ≠ .away)
    (hst : Keeps s t ∨ s.lock .wait = some c) (hcl : k.stage.Claims t.proc) (d : Fin N) :
    (t.code d).stage.Claims t.proc := by
  rw [code_congr hcpu hth, hc.code_goto hk]
  split_ifs with hdc
  · exact hcl
  · rcases hst with hst | hl
    · exact (h d).mono hst
    · by_cases hn : (s.code d).stage = .none
      · rw [hn]
        trivial
      · have := (hc.lock d .wait).mpr (holds_of_stage (hc.ok d) hn)
        rw [hl] at this
        exact (hdc (Option.some.inj this).symm).elim

theorem claims_same (hc : Control client.holds s) (h : ∀ d, (s.code d).stage.Claims s.proc)
    (hth : t.thread = (s.goto c k).thread) (hcpu : t.cpu = (s.goto c k).cpu)
    (hpc : s.code c = k') (hk : k ≠ .away) (hst : Keeps s t)
    (hs : k.stage = k'.stage ∨ k.stage = .none) (d : Fin N) : (t.code d).stage.Claims t.proc := by
  refine claims_goto hc h hth hcpu hk (Or.inl hst) ?_ d
  rcases hs with hs | hs
  · rw [hs, ← hpc]
    exact (h c).mono hst
  · rw [hs]
    trivial

theorem claims_scheduler {x : Cpu K} (h : ∀ d, (s.code d).stage.Claims s.proc)
    (hcpu : t.cpu = Function.update s.cpu c x)
    (hth : ∀ d q, d ≠ c → s.agent d = some q → t.thread q = s.thread q) (hst : Keeps s t)
    (hcl : (t.code c).stage = .none) (d : Fin N) : (t.code d).stage.Claims t.proc := by
  by_cases hdc : d = c
  · rw [hdc, hcl]
    trivial
  · have hag : t.agent d = s.agent d := by simp [agent, hcpu, hdc]
    have hcode : t.code d = s.code d := by
      unfold code
      rw [hag, hcpu, Function.update_of_ne hdc]
      cases ha : s.agent d with
      | none => rfl
      | some q => exact hth d q hdc ha
    rw [hcode]
    exact (h d).mono hst

/-- A step keeps what `wait` and `exit` have found out about parents and children. -/
theorem claims_step (hc : Control client.holds s) (h : Family s)
    (hst : Step client s t) : ∀ c, (t.code c).stage.Claims t.proc := by
  have hcl := h.claims
  cases hst with
  | acquire c p k hpc hl =>
    have hok := hc.ok c
    rw [hpc, Ok] at hok
    exact claims_same hc hcl rfl rfl hpc hok.2.2.2.2.ne_away (.of_eq (by simp)) (Or.inl rfl)
  | release c p k hpc hl =>
    have hok := hc.ok c
    rw [hpc, Ok] at hok
    exact claims_same hc hcl rfl rfl hpc hok.2.2.ne_away (.of_eq (by simp)) (Or.inl rfl)
  | acquireLk c l k hpc hl =>
    have hok := hc.ok c
    rw [hpc, Ok] at hok
    have hstarts : k.Starts := by
      have := h.ready.code c
      rwa [hpc] at this
    exact claims_goto hc hcl rfl rfl hok.2.2.2.2.ne_away (Or.inl (.of_eq (by simp)))
      hstarts.claims
  | releaseLk c l k hpc hl =>
    have hok := hc.ok c
    rw [hpc, Ok] at hok
    exact claims_same hc hcl rfl rfl hpc hok.2.2.2.ne_away (.of_eq (by simp)) (Or.inl rfl)
  | pick c i hpc hr =>
    refine claims_scheduler hcl rfl (fun _ _ _ _ => rfl) (.of_ne i (by simp +contextual) ?_ ?_) ?_
    · simp
    · simp
    · simp [code, agent, stage]
  | switchTo c i hpc =>
    obtain ⟨hproc, -, -, hres, hctx⟩ := hc.thread_of_switchTo hpc
    rw [hctx, Function.update_eq_self]
    refine claims_scheduler hcl rfl (fun _ _ _ _ => rfl) (.of_eq rfl) ?_
    have hnone : (s.thread i).stage = .none := by
      by_contra hn
      have := holds_of_stage hres.2.2.2.2 hn
      rw [hres.2.1] at this
      cases this
    simpa [code, agent, hproc] using hnone
  | back c i hpc =>
    exact claims_scheduler hcl rfl (fun _ _ _ _ => rfl) (.of_eq rfl) (by simp [code, agent, stage])
  | swtch c q k hpc =>
    have hok := hc.ok c
    rw [hpc, Ok] at hok
    refine claims_scheduler hcl rfl ?_ (.of_ne q (by simp +contextual) (by simp) (by simp)) ?_
    · intro d r hdc hr
      have hrq : r ≠ q := by
        rintro rfl
        exact hdc (hc.agent_unique hr hok.1)
      simp [hrq]
    · rw [hc.back c q hok.1]
      simp [code, agent, stage]
  | preempt c q hp hl hl' =>
    refine claims_same hc hcl rfl rfl rfl (by simp) (.of_eq (by simp)) (Or.inr rfl)
  | yielding c q k hpc =>
    exact claims_same hc hcl rfl rfl hpc (by simp) (.of_ne q (by simp +contextual) (by simp) (by simp)) (Or.inr rfl)
  | sleeping c chan q k hpc =>
    exact claims_same hc hcl rfl rfl hpc (by simp) (.of_ne q (by simp +contextual) (by simp) (by simp)) (Or.inr rfl)
  | tidy c q k hpc =>
    have hok := hc.ok c
    rw [hpc, Ok] at hok
    obtain ⟨-, chan, hk⟩ := hok
    refine claims_same hc hcl rfl rfl hpc (by simp)
      (.of_ne q (by simp +contextual) (by simp) (by simp)) (Or.inr ?_)
    cases hk <;> rfl
  | wakeup c chan j k hpc hj | wakeupSelf c chan j k hpc hj | wakeNone c chan j k hpc hs =>
    exact claims_same hc hcl rfl rfl hpc (by simp) (.of_eq (by simp)) (Or.inl rfl)
  | wakeOne c chan j k hpc hs hchan =>
    exact claims_same hc hcl rfl rfl hpc (by simp) (.of_ne j (by simp +contextual) (by simp) (by simp)) (Or.inl rfl)
  | wakeupEnd c chan j k hpc hj =>
    have hok := hc.ok c
    rw [hpc, Ok] at hok
    exact claims_same hc hcl rfl rfl hpc hok.ok.1.ne_away (.of_eq (by simp)) (Or.inl rfl)
  | killSleeping c pid j x hpc hp hs =>
    exact claims_same hc hcl rfl rfl hpc (by simp) (.of_ne j (by simp +contextual) (by simp) (by simp)) (Or.inr rfl)
  | killOne c pid j x hpc hp hs =>
    exact claims_same hc hcl rfl rfl hpc (by simp) (.of_ne j (by simp +contextual) (by simp) (by simp)) (Or.inr rfl)
  | setKilled c q x hpc =>
    exact claims_same hc hcl rfl rfl hpc (by simp) (.of_ne q (by simp +contextual) (by simp) (by simp)) (Or.inr rfl)
  | allocOne c q i x hpc hs =>
    have hoff := hc.off_cpu (c := c) (q := i) (by simp [hpc, expects]) (by simp [hpc, Pc.holds])
      (by rw [hs]; decide)
    have hcb := hc.birth client.start_holds hoff
    have hshr : Keeps s (s.birth client.start i) :=
      .of_ne i (by simp +contextual [Kernel.birth]) (by simp [Kernel.birth]) (by simp [Kernel.birth])
    refine claims_same hcb (fun d => ?_) rfl rfl (Control.code_birth _ hoff c) (by simp)
      (.of_eq (by simp)) (Or.inr rfl)
    rw [Control.code_birth _ hoff]
    exact (hcl d).mono hshr
  | forkFail c q np x hpc =>
    have hnone := h.ready.code c
    rw [hpc] at hnone
    have hnone : (s.proc np).parent = none := hnone
    exact claims_same hc hcl rfl rfl hpc (by simp) (.of_ne np (by simp +contextual)
      (by simp [Process.free, hnone]) (by simp [Process.free])) (Or.inr rfl)
  | setParent c q np pid x hpc =>
    have hlock : s.lock .wait = some c := by
      rw [hc.lock, hpc]
      rfl
    exact claims_goto hc hcl rfl rfl (by simp) (Or.inr hlock) trivial
  | setRunnable c np pid x hpc =>
    exact claims_same hc hcl rfl rfl hpc (by simp) (.of_ne np (by simp +contextual) (by simp) (by simp)) (Or.inr rfl)
  | reparent c q status i hpc hp =>
    have hlock : s.lock .wait = some c := by
      rw [hc.lock, hpc]
      rfl
    have hme := hcl c
    rw [hpc] at hme
    refine claims_goto hc hcl rfl rfl (by simp) (Or.inr hlock) ⟨hme.1, fun r hr => ?_⟩
    by_cases hri : r = i
    · simp [hri, hme.1.symm]
    · have hlt : (r : ℕ) < i := by
        have : (r : ℕ) ≠ i := fun he => hri (Fin.ext he)
        omega
      simpa [hri] using hme.2 r hlt
  | reparentNone c q status i hpc hp =>
    have hme := hcl c
    rw [hpc] at hme
    refine claims_goto hc hcl rfl rfl (by simp) (Or.inl (.of_eq (by simp))) ⟨hme.1, fun r hr => ?_⟩
    by_cases hri : r = i
    · simpa [hri] using hp
    · have hlt : (r : ℕ) < i := by
        have : (r : ℕ) ≠ i := fun he => hri (Fin.ext he)
        omega
      simpa using hme.2 r hlt
  | exitWakeup c q status i r hpc hi hq =>
    have hme := hcl c
    rw [hpc] at hme
    refine claims_goto hc hcl rfl rfl (by simp) (Or.inl (.of_eq (by simp))) ⟨hme.1, fun r hr => ?_⟩
    simpa using hme.2 r (by omega)
  | zombie c q status hpc =>
    have hlock : s.lock .wait = some c := by
      rw [hc.lock, hpc]
      rfl
    exact claims_goto hc hcl rfl rfl (by simp) (Or.inr hlock) trivial
  | waitScan c q i kids x hpc hp =>
    have hme := hcl c
    rw [hpc] at hme
    refine claims_goto hc hcl rfl rfl (by simp) (Or.inl (.of_eq (by simp))) ⟨by simpa using hp, ?_⟩
    rw [proc_goto]
    exact fun r hr hpar => (hme r hr hpar).1
  | waitSkip c q i kids x hpc hp =>
    have hme := hcl c
    rw [hpc] at hme
    refine claims_goto hc hcl rfl rfl (by simp) (Or.inl (.of_eq (by simp))) fun r hr hpar => ?_
    rw [proc_goto] at hpar ⊢
    have hri : (r : ℕ) ≠ i := by
      intro he
      rw [Fin.ext he] at hpar
      exact hp hpar
    exact hme r (by omega) hpar
  | waitKids c q i x hpc hi =>
    have hme := hcl c
    rw [hpc] at hme
    refine claims_goto hc hcl rfl rfl (by simp) (Or.inl (.of_eq (by simp))) fun r hr hpar => ?_
    rw [proc_goto] at hpar ⊢
    exact hme r (by omega) hpar
  | waitFree c q i x hpc hs =>
    have hlock : s.lock .wait = some c := by
      rw [hc.lock, hpc]
      rfl
    exact claims_goto hc hcl rfl rfl (by simp) (Or.inr hlock) trivial
  | waitMore c q i x hpc hs =>
    have hme := hcl c
    rw [hpc] at hme
    refine claims_goto hc hcl rfl rfl (by simp) (Or.inl (.of_eq (by simp))) fun r hr hpar => ?_
    rw [proc_goto] at hpar ⊢
    by_cases hri : r = i
    · rw [hri]
      exact ⟨hs, rfl⟩
    · have hlt : (r : ℕ) < i := by
        have : (r : ℕ) ≠ i := fun he => hri (Fin.ext he)
        omega
      exact ⟨hme.2 r hlt hpar, rfl⟩
  | device d hd => exact hcl
  | _ => exact claims_same hc hcl rfl rfl ‹_› (by rintro ⟨⟩) (.of_eq (by simp)) (Or.inr (by rfl))

namespace Parents

theorem update (h : Parents s) (i : Slot) {r : Process K} (hproc : t.proc = Function.update s.proc i r)
    (hact : Active (s.proc i).state → Active r.state ∨ ∀ q, (s.proc q).parent ≠ some i)
    (hlive : ∀ q, r.parent = some q → Active (t.proc q).state)
    (hun : r.state = .unused → r.parent = none)
    (hsome : i ≠ initproc → Active r.state ∨ r.state = .zombie → r.parent.isSome = true)
    (hfirst : i = initproc → Active r.state) : Parents t := by
  have hi : t.proc i = r := by rw [hproc, Function.update_self]
  have hne : ∀ q, q ≠ i → t.proc q = s.proc q := fun q hq => by rw [hproc, Function.update_of_ne hq]
  constructor
  · intro q q' hq
    by_cases hqi : q = i
    · rw [hqi, hi] at hq
      exact hlive q' hq
    · rw [hne q hqi] at hq
      have hq' := h.live q q' hq
      by_cases hi' : q' = i
      · rw [hi'] at hq hq' ⊢
        rw [hi]
        exact (hact hq').resolve_right fun hno => hno q hq
      · rwa [hne q' hi']
  · intro q
    by_cases hqi : q = i
    · rw [hqi, hi]
      exact hun
    · rw [hne q hqi]
      exact h.unused q
  · intro q
    by_cases hqi : q = i
    · rw [hqi, hi]
      exact hsome
    · rw [hne q hqi]
      exact h.parent q
  · by_cases hqi : initproc = i
    · rw [hqi, hi]
      exact hfirst hqi.symm
    · rw [hne _ hqi]
      exact h.first

theorem childless (h : Parents s) {i : Slot} (hi : ¬Active (s.proc i).state) :
    (∀ q, (s.proc q).parent ≠ some i) ∧ i ≠ initproc := by
  constructor
  · intro q hq
    exact hi (h.live q i hq)
  · rintro rfl
    exact hi h.first

theorem update_childless (h : Parents s) {i : Slot} {r : Process K}
    (hproc : t.proc = Function.update s.proc i r) (hi : ¬Active (s.proc i).state)
    (hpar : r.parent = (s.proc i).parent ∨ r.parent = none)
    (hun : r.state = .unused → r.parent = none)
    (hsome : Active r.state ∨ r.state = .zombie → r.parent.isSome = true) : Parents t := by
  refine h.update i hproc (fun ha => (hi ha).elim) (fun q hq => ?_) hun (fun _ => hsome)
    fun he => ((h.childless hi).2 he).elim
  rcases hpar with hpar | hpar
  · rw [hpar] at hq
    have hq' := h.live i q hq
    have hne : q ≠ i := by
      rintro rfl
      exact hi hq'
    rwa [hproc, Function.update_of_ne hne]
  · rw [hpar] at hq
    cases hq

theorem of_fate (hc : Control client.holds s) (hf : Forks s) (h : Family s) (ht : Fate s t) :
    Parents t := by
  have hp := h.parents
  cases ht with
  | quiet hq hh =>
    constructor
    · intro q r hr
      rw [(hq q).parent] at hr
      exact (hq r).active.mpr (hp.live q r hr)
    · intro q hs
      rw [(hq q).parent]
      exact hp.unused q (((hq q).state_iff not_active_unused).mp hs)
    · intro q hne hs
      rw [(hq q).parent]
      rw [(hq q).active, (hq q).state_iff not_active_zombie] at hs
      exact hp.parent q hne hs
    · exact (hq initproc).active.mpr hp.first
  | alloc c p i x k hpc hs hproc hh =>
    refine hp.update_childless hproc ?_ (Or.inl rfl) (by simp) ?_
    · rw [hs]
      exact not_active_unused
    · rintro (ha | hz)
      · exact (not_active_used ha).elim
      · cases hz
  | forkFail c p np x hpc hproc hh =>
    have hok := hc.ok c
    rw [hpc, Ok] at hok
    refine hp.update_childless hproc ?_ (Or.inr rfl) (fun _ => rfl) ?_
    · rw [hf.of_code hpc rfl (by simp [hok.1])]
      exact not_active_used
    · rintro (ha | hz)
      · exact (not_active_unused ha).elim
      · cases hz
  | setParent c p np pid x hpc hproc hh =>
    have hok := hc.ok c
    rw [hpc, Ok] at hok
    have hs := hf.of_code hpc rfl (by simp [hok.1])
    have hrun : (s.proc p).state = .running := by
      simpa [hpc, expects] using hc.state c p (proc_of_agent hok.1)
    have hne : p ≠ np := by
      rintro rfl
      rw [hs] at hrun
      cases hrun
    refine hp.update np hproc ?_ ?_ ?_ (fun _ _ => rfl) ?_
    · rw [hs]
      exact fun ha => (not_active_used ha).elim
    · intro q hq
      obtain rfl : p = q := Option.some.inj hq
      rw [hproc, Function.update_of_ne hne]
      exact active_of_running hrun
    · intro hu
      rw [show (s.proc np).state = .unused from hu] at hs
      cases hs
    · rintro rfl
      exact hp.first
  | setRunnable c np pid x hpc hproc hh =>
    have hok := hc.ok c
    rw [hpc, Ok] at hok
    have hs := hf.of_code hpc rfl hok.1
    refine hp.update_childless hproc ?_ (Or.inl rfl) (by simp) fun _ => ?_
    · rw [hs]
      exact not_active_used
    · have := h.ready.code c
      rwa [hpc] at this
  | reparent c p status i hpc hi hproc hh hl hk =>
    refine hp.update i hproc Or.inl ?_ ?_ (fun _ _ => rfl) ?_
    · intro q hq
      obtain rfl : initproc = q := Option.some.inj hq
      rw [hproc]
      by_cases he : initproc = i
      · rw [he, Function.update_self]
        exact he ▸ hp.first
      · rw [Function.update_of_ne he]
        exact hp.first
    · intro hu
      rw [hp.unused i hu] at hi
      cases hi
    · rintro rfl
      exact hp.first
  | zombie c p status hpc hproc hh =>
    have hok := hc.ok c
    rw [hpc, Ok] at hok
    have hrun : (s.proc p).state = .running := by
      simpa [hpc, expects] using hc.state c p (proc_of_agent hok)
    have hcl := h.claims c
    rw [hpc] at hcl
    have hno : ∀ q, (s.proc q).parent ≠ some p := fun q => hcl.2 q q.isLt
    refine hp.update p hproc (fun _ => Or.inr hno) ?_ (by simp) ?_ ?_
    · intro q hq
      have hne : q ≠ p := by
        rintro rfl
        exact hno q hq
      rw [hproc, Function.update_of_ne hne]
      exact hp.live p q hq
    · intro hne _
      exact hp.parent p hne (Or.inl (active_of_running hrun))
    · exact fun he => (hcl.1 he).elim
  | waitFree c p i x hpc hs hproc hh =>
    refine hp.update_childless hproc ?_ (Or.inr rfl) (fun _ => rfl) ?_
    · rw [hs]
      exact not_active_zombie
    · rintro (ha | hz)
      · exact (not_active_unused ha).elim
      · cases hz

end Parents

theorem Family.step (hc : Control client.holds s) (hf : Forks s) (h : Family s)
    (hst : Step client s t) : Family t :=
  ⟨.of_fate hc hf h (hst.fate hc), h.ready.step hc hf h.parents hst, claims_step hc h hst⟩

theorem Initial.family (h : Initial client init s) : Family s := by
  have hcode : ∀ c, s.agent c = none ∧ (s.cpu c).pc = .scan 0 := by
    intro c
    have hpc := (h.cpu c).2
    exact ⟨agent_of_ne_away (by rw [hpc]; simp), hpc⟩
  refine ⟨⟨?_, ?_, ?_, ?_⟩, ⟨?_, ?_⟩, ?_⟩
  · intro q r hq
    by_cases hi : q = initproc
    · rw [hi, h.first] at hq
      cases hq
    · rw [(h.others q hi).2.2.2.2] at hq
      cases hq
  · intro q hs
    by_cases hi : q = initproc
    · rw [hi, h.first] at hs
      cases hs
    · exact (h.others q hi).2.2.2.2
  · intro q hi hs
    rw [(h.others q hi).1] at hs
    rcases hs with hs | hs
    · exact (not_active_unused hs).elim
    · cases hs
  · rw [h.first]
    exact Or.inr (Or.inl rfl)
  · intro q
    by_cases hi : q = initproc
    · rw [hi, h.thread]
      trivial
    · rw [h.idle q hi]
      trivial
  · intro c _ g
    rw [(hcode c).2]
    trivial
  · intro c
    rw [code_of_scheduler (hcode c).1, (hcode c).2]
    trivial

/-- In every run parents, and the code that changes them, are as `Family` says. -/
theorem reachable_family (h : (machine N client init).Reachable s) : Family s := by
  apply h.invariant (I := Family)
  · intro s hs
    exact Initial.family hs
  · intro s t hr hs hst
    obtain ⟨hc, hf⟩ := reachable_control hr
    exact hs.step hc hf hst

end Xv6.Sched
