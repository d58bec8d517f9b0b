import Xv6.Sched.Exec
import Xv6.Sched.Monitor
import Xv6.Sched.Reap

/-! `exit` and `wait`: parents, exit statuses, the results of `wait`, and the processes that sleep in
it. -/
namespace Xv6.Sched

open Proc (ProcState)
open Pc Kernel

variable {N : ℕ} {σ K : Type} {client : Client σ K} {init : σ → Prop} {s t : Kernel N σ K}
  {c d : Fin N} {p q i : Slot} {f : K → ℕ → Bool} {me : Option Slot} {k k' : Pc K} {lk : Lock}

namespace Pc

def dying : Pc K → Bool
  | acquire _ k | release _ k | releaseLk _ k | wakeup _ _ k | wakeOne _ _ k => k.dying
  | zombie .. => true
  | _ => false

theorem stage_of_dying (h : k.dying = true) : k.stage ≠ .none := by
  induction k with
  | acquire p k ih | release p k ih | releaseLk p k ih | wakeup chan j k ih | wakeOne chan j k ih =>
    exact ih h
  | zombie p status => simp [stage]
  | _ => cases h

theorem Starts.not_dying (h : k.Starts) : k.dying = false := by
  cases k with
  | reparent | waitScan | setParent | client => rfl
  | _ => exact h.elim

theorem expects_of_dying {st : ProcState} (h : k.dying = true) (he : k.expects st) :
    st = .running := by
  induction k with
  | acquire p k ih | wakeup chan j k ih | wakeOne chan j k ih => exact he
  | release p k ih | releaseLk p k ih => exact ih h he
  | zombie p status => exact he
  | _ => cases h

theorem naps_proc (hok : k.Ok f me) (h : k.naps = some (.proc q, lk)) : lk = .wait := by
  induction k with
  | acquire p k ih => exact ih hok.2.2.2.2 h
  | release p k ih => exact ih hok.2.2 h
  | releaseLk l k ih => exact ih hok.2.2.2 h
  | sleeping chan p k ih =>
    obtain ⟨-, hk⟩ := hok
    cases hk with
    | client n l x _ => cases h
    | wait x _ =>
      cases h
      rfl
  | _ => cases h

end Pc

theorem Control.locked_of_dying (hc : Control client.holds s) (hp : Live s p)
    (hd : (s.thread p).dying = true) :
    (s.proc p).state = .running ∧ ∃ c, s.agent c = some p ∧ s.lock .wait = some c := by
  by_cases hon : ∃ c, s.agent c = some p
  · obtain ⟨c, hag⟩ := hon
    have hok := hc.ok c
    have hst := hc.state c p (proc_of_agent hag)
    rw [code_of_agent hag] at hok hst
    refine ⟨expects_of_dying hd hst, c, hag, (hc.lock c .wait).mpr ?_⟩
    rw [code_of_agent hag]
    exact holds_of_stage hok (stage_of_dying hd)
  · obtain ⟨hres, -⟩ := hc.context p (fun c hag => hon ⟨c, hag⟩) hp.1 hp.2
    have := holds_of_stage hres.2.2.2.2 (stage_of_dying hd)
    rw [hres.2.1] at this
    cases this

structure ExitWakeup (s t : Kernel N σ K) (p q : Slot) (c : Fin N) : Prop where
  parent : (s.proc p).parent = some q
  proc : t.proc = s.proc
  lock : t.lock .wait = some c
  code : ∃ k, t.code c = .wakeup (.proc q) 0 k

theorem dying_goto (hth : t.thread = (s.goto c k).thread) (hpc : s.code c = k')
    (hk : k.dying = true → k'.dying = true) (h : (t.thread p).dying = true) :
    (s.thread p).dying = true := by
  rw [hth, thread_goto] at h
  split_ifs at h with hc
  · rw [← code_of_agent hc, hpc]
    exact hk h
  · exact h

theorem Step.dying (hc : Control client.holds s) (hr : Readies s) (hst : Step client s t)
    (h : (t.thread p).dying = true) :
    (s.thread p).dying = true ∨ ∃ q c, ExitWakeup s t p q c := by
  cases hst with
  | acquireLk c l k hpc hl =>
    have hk := hr.code c
    rw [hpc] at hk
    exact Or.inl (dying_goto (k := k) rfl hpc (by rw [Starts.not_dying hk]; simp) h)
  | pick c i hpc hr => exact Or.inl h
  | switchTo c i hpc =>
    obtain ⟨-, -, -, -, hctx⟩ := hc.thread_of_switchTo hpc
    rw [hctx, Function.update_eq_self] at h
    exact Or.inl h
  | back c i hpc => exact Or.inl h
  | swtch c q k hpc =>
    have hok := hc.ok c
    rw [hpc, Ok] at hok
    by_cases hpq : p = q
    · have hk : k.dying = true := by simpa [hpq] using h
      rcases hok.2 with rfl | ⟨-, hl, -, -, hk'⟩
      · cases hk
      · have := holds_of_stage hk' (stage_of_dying hk)
        rw [hl] at this
        cases this
    · exact Or.inl (by simpa [hpq] using h)
  | preempt c q hp hl hl' =>
    exact Or.inl (dying_goto (k := .acquire q (.yielding q (s.thread q))) rfl (code_of_agent hp)
      (by simp [Pc.dying]) h)
  | tidy c q k hpc =>
    have hok := hc.ok c
    rw [hpc, Ok] at hok
    obtain ⟨-, chan, hk⟩ := hok
    refine Or.inl (dying_goto (k := .release q k) rfl hpc (fun hd => ?_) h)
    cases hk <;> cases hd
  | allocOne c q i x hpc hs =>
    left
    rw [thread_goto] at h
    split_ifs at h with ha
    · cases h
    · by_cases hpi : p = i
      · rw [hpi, show (s.birth client.start i).thread i = .release i (.client client.start) by
          simp [Kernel.birth]] at h
        cases h
      · simpa [Kernel.birth, hpi] using h
  | exitWakeup c q status i r hpc hi hq =>
    have hok := hc.ok c
    rw [hpc, Ok] at hok
    by_cases hpq : p = q
    · rw [← hpq] at hq
      refine Or.inr ⟨r, c, hq, by simp, ?_, .acquire q (.zombie q status), code_goto_self (by simp)⟩
      have hl := (hc.lock c .wait).mpr (by rw [hpc]; rfl)
      simpa [enterWakeup] using hl
    · left
      have h' : ((s.goto c (.wakeup (.proc r) 0 (.acquire q (.zombie q status)))).thread p).dying
        = true := h
      rwa [thread_goto_of_ne] at h'
      rw [hok]
      exact fun he => hpq (Option.some.inj he).symm
  | zombie c q status hpc => exact Or.inl (dying_goto rfl hpc (fun _ => rfl) h)
  | device d hd => exact Or.inl h
  | _ => exact Or.inl (dying_goto rfl ‹_› (by exact id) h)

/-- A process that sleeps in `wait`, or is about to, is about to be woken up when a child of it is a
zombie, or about to be one. -/
def Attended (s : Kernel N σ K) : Prop :=
  ∀ p i lk, Blocked s p (.proc p) lk → (s.proc i).parent = some p →
    (s.proc i).state = .zombie ∨ Live s i ∧ (s.thread i).dying = true →
    ∃ c, s.lock .wait = some c ∧ (s.code c).wakes (fun _ => false) (.proc p) p = true

namespace Attended

theorem before (hc : Control client.holds s) (hct : Control client.holds t) (hf : Forks s)
    (hfam : Family s) (ht : Fate s t) (hpar : (t.proc i).parent = some p)
    (hz : (t.proc i).state = .zombie ∨ Live t i ∧ (t.thread i).dying = true) :
    (∃ c, t.lock .wait = some c ∧ (t.code c).wakes (fun _ => false) (.proc p) p = true) ∨
    (s.proc i).parent = some p ∧ ((s.proc i).state = .zombie ∨
      Live s i ∧ ((s.thread i).dying = true ∨ (t.thread i).dying = true)) := by
  have hsame : (t.proc i).parent = (s.proc i).parent → (t.proc i).state = (s.proc i).state →
      (s.proc i).parent = some p ∧ ((s.proc i).state = .zombie ∨
        Live s i ∧ ((s.thread i).dying = true ∨ (t.thread i).dying = true)) := by
    intro h₁ h₂
    rw [h₁] at hpar
    rw [Live, h₂] at hz
    exact ⟨hpar, hz.imp id fun h => ⟨h.1, Or.inr h.2⟩⟩
  have hne : ∀ {j : Slot} {r : Process K}, t.proc = Function.update s.proc j r → i ≠ j →
      t.proc i = s.proc i := by
    intro j r hproc hij
    rw [hproc, Function.update_of_ne hij]
  cases ht with
  | quiet hq hh =>
    right
    rw [(hq i).parent] at hpar
    rw [(hq i).state_iff not_active_zombie, Live, ne_eq, (hq i).state_iff not_active_unused, ne_eq,
      (hq i).state_iff not_active_zombie] at hz
    exact ⟨hpar, hz.imp id fun h => ⟨h.1, Or.inr h.2⟩⟩
  | alloc c q j x k hpc hs hproc hh =>
    have hij : i ≠ j := by
      rintro rfl
      rw [hproc, Function.update_self, show (s.proc i).parent = none from hfam.parents.unused i hs]
        at hpar
      cases hpar
    exact Or.inr (hsame (by rw [hne hproc hij]) (by rw [hne hproc hij]))
  | forkFail c q np x hpc hproc hh =>
    have hij : i ≠ np := by
      rintro rfl
      rw [hproc, Function.update_self] at hpar
      cases hpar
    exact Or.inr (hsame (by rw [hne hproc hij]) (by rw [hne hproc hij]))
  | setParent c q np pid x hpc hproc hh =>
    by_cases hij : i = np
    · subst hij
      have hok := hc.ok c
      rw [hpc, Ok] at hok
      have hs := hf.of_code hpc rfl (by simp [hok.1])
      have hst : (t.proc i).state = .used := by rw [hproc, Function.update_self, hs]
      rcases hz with hz | ⟨hl, hd⟩
      · rw [hst] at hz
        cases hz
      · rw [(hct.locked_of_dying hl hd).1] at hst
        cases hst
    · exact Or.inr (hsame (by rw [hne hproc hij]) (by rw [hne hproc hij]))
  | setRunnable c np pid x hpc hproc hh =>
    by_cases hij : i = np
    · subst hij
      have hok := hc.ok c
      rw [hpc, Ok] at hok
      have hs := hf.of_code hpc rfl hok.1
      rw [hproc, Function.update_self] at hpar
      refine Or.inr ⟨hpar, Or.inr ⟨by simp [Live, hs], Or.inr ?_⟩⟩
      rcases hz with hz | hz
      · rw [hproc, Function.update_self] at hz
        cases hz
      · exact hz.2
    · exact Or.inr (hsame (by rw [hne hproc hij]) (by rw [hne hproc hij]))
  | reparent c q status j hpc hj hproc hh hl hk =>
    by_cases hij : i = j
    · subst hij
      rw [hproc, Function.update_self] at hpar
      obtain rfl : initproc = p := Option.some.inj hpar
      refine Or.inl ⟨c, ?_, ?_⟩
      · rw [hl, hc.lock, hpc]
        rfl
      · rw [hk]
        simp [Pc.wakes]
    · exact Or.inr (hsame (by rw [hne hproc hij]) (by rw [hne hproc hij]))
  | zombie c q status hpc hproc hh =>
    by_cases hij : i = q
    · subst hij
      have hok := hc.ok c
      rw [hpc, Ok] at hok
      have hrun : (s.proc i).state = .running := by
        simpa [hpc, expects] using hc.state c i (proc_of_agent hok)
      rw [hproc, Function.update_self] at hpar
      refine Or.inr ⟨hpar, Or.inr ⟨by simp [Live, hrun], Or.inl ?_⟩⟩
      rw [← code_of_agent hok, hpc]
      rfl
    · exact Or.inr (hsame (by rw [hne hproc hij]) (by rw [hne hproc hij]))
  | waitFree c q j x hpc hs hproc hh =>
    have hij : i ≠ j := by
      rintro rfl
      rw [hproc, Function.update_self] at hpar
      cases hpar
    exact Or.inr (hsame (by rw [hne hproc hij]) (by rw [hne hproc hij]))

/-- A step leaves no parent asleep with a zombie that is not about to wake it. -/
theorem step (hc : Control client.holds s) (hf : Forks s) (hfam : Family s) (h : Attended s)
    (hst : Step client s t) : Attended t := by
  intro p i lk hb hpar hz
  have hct := hc.step hf hst
  rcases before hc hct hf hfam (hst.fate hc) hpar hz with hgoal | ⟨hpar', hz'⟩
  · exact hgoal
  have hcases : (∃ c, t.lock .wait = some c ∧
      (t.code c).wakes (fun _ => false) (.proc p) p = true) ∨
      (s.proc i).state = .zombie ∨ Live s i ∧ (s.thread i).dying = true := by
    rcases hz' with hz' | ⟨hl, hd | hd⟩
    · exact Or.inr (Or.inl hz')
    · exact Or.inr (Or.inr ⟨hl, hd⟩)
    · rcases hst.dying hc hfam.ready hd with hd | ⟨q, c, he⟩
      · exact Or.inr (Or.inr ⟨hl, hd⟩)
      · obtain rfl : q = p := Option.some.inj (he.parent.symm.trans hpar')
        obtain ⟨k, hk⟩ := he.code
        exact Or.inl ⟨c, he.lock, by simp [hk, Pc.wakes]⟩
  rcases hcases with hgoal | hz'
  · exact hgoal
  rcases hst.blocked hc hb with ⟨lk', hbs⟩ | ⟨he, -⟩
  · obtain ⟨c, hl, hw⟩ := h p i lk' hbs hpar' hz'
    have hlock : ∀ q l, Napping s q (.proc p) l → l = .wait := by
      rintro q l ⟨d, hd, hn⟩
      rw [← code_of_agent hd] at hn
      exact naps_proc (hc.ok d) hn
    refine ⟨c, ?_, (Pledge.nothing client _ _).wakes hc hct hlock hst hl hw hbs hb⟩
    rcases hst.keeps_lock hl with hl' | ⟨k, hk⟩
    · exact hl'
    · rw [hk] at hw
      cases k <;> cases hw
  · cases he with
    | wait c x hpc hag hk =>
      have hl : s.lock .wait = some c := by
        rw [hc.lock, hpc]
        rfl
      have hcl := hfam.claims c
      rw [hpc] at hcl
      rcases hz' with hz' | ⟨hlive, hd⟩
      · exact absurd hz' (hcl i i.isLt hpar').1
      · obtain ⟨-, d, hd', hl'⟩ := hc.locked_of_dying hlive hd
        obtain rfl : c = d := Option.some.inj (hl.symm.trans hl')
        rw [← code_of_agent hd', hpc] at hd
        cases hd

end Attended

/-- In every run a parent that sleeps in `wait` is woken up for each zombie. -/
theorem reachable_attended (h : (machine N client init).Reachable s) : Attended s := by
  apply h.invariant (I := Attended)
  · intro s hs p i lk _ hpar
    by_cases hi : i = initproc
    · rw [hi, Initial.first hs] at hpar
      cases hpar
    · rw [(Initial.others hs i hi).2.2.2.2] at hpar
      cases hpar
  · intro s t hr hs hst
    obtain ⟨hc, hf⟩ := reachable_control hr
    exact hs.step hc hf (reachable_family hr) hst

/-- A call of `wait` in its loop, with the caller and where it returns to. -/
def Pc.waiting : Pc K → Option (Slot × (ℤ → K))
  | waitScan p _ _ x | waitOne p _ x | waitKilled p x => some (p, x)
  | _ => none

def Pc.returning : Pc K → Option K
  | releaseLk .wait (.client y) | release _ (releaseLk .wait (.client y)) => some y
  | _ => none

/-- What a call of `wait` by process `p` returns, and why. -/
inductive WaitResult (s t : Kernel N σ K) (p : Slot) : ℤ → Prop
  | child (i : Slot) (hs : (s.proc i).state = .zombie) (hp : (s.proc i).parent = some p)
      (hw : t.hist.waits = s.hist.waits ++ [(s.exit i, p)]) : WaitResult s t p (s.proc i).pid.toInt
  | none (h : ∀ q, (s.proc q).parent ≠ some p) : WaitResult s t p (-1)
  | killed (h : (s.proc p).killed = true) : WaitResult s t p (-1)
  | copyout (i : Slot) (hs : (s.proc i).state = .zombie) (hp : (s.proc i).parent = some p)
      (ht : t.proc i = s.proc i) : WaitResult s t p (-1)

theorem Pc.returning_of_waiting {y : ℤ → K} {z : K} (h : k.waiting = some (p, y))
    (h' : k.returning = some z) : False := by
  cases k with
  | waitScan | waitOne | waitKilled => cases h'
  | _ => cases h

theorem returning_goto (hc : Control client.holds s) {x : ℤ → K} {y : K}
    (hr : (t.code c).returning = some y) (hw : (s.code c).waiting = some (p, x))
    (hpc : s.code d = k') (hth : t.thread = (s.goto d k).thread) (hcpu : t.cpu = (s.goto d k).cpu)
    (hk : k ≠ .away) : k.returning = some y ∧ k'.waiting = some (p, x) := by
  rw [code_congr hcpu hth, hc.code_goto hk] at hr
  split_ifs at hr with hcd
  · rw [hcd, hpc] at hw
    exact ⟨hr, hw⟩
  · exact (returning_of_waiting hw hr).elim

theorem returning_scheduler {x : ℤ → K} {y : K} {z : Cpu K} (hr : (t.code c).returning = some y)
    (hw : (s.code c).waiting = some (p, x)) (hpc : s.code d = k') (hk : k'.waiting = none)
    (hcpu : t.cpu = Function.update s.cpu d z)
    (hth : ∀ q, c ≠ d → s.agent c = some q → t.thread q = s.thread q) : False := by
  have hcd : c ≠ d := by
    rintro rfl
    rw [hpc, hk] at hw
    cases hw
  have hcode : t.code c = s.code c := by
    unfold code
    rw [show t.agent c = s.agent c by simp [agent, hcpu, hcd], hcpu, Function.update_of_ne hcd]
    cases ha : s.agent c with
    | none => rfl
    | some q => exact hth q hcd ha
  rw [hcode] at hr
  exact returning_of_waiting hw hr

/-- What a call of `wait` returns is right when it is decided. -/
theorem wait_step (hc : Control client.holds s) (hfam : Family s) {x : ℤ → K} {y : K}
    (hst : Step client s t) (hw : (s.code c).waiting = some (p, x))
    (hr : (t.code c).returning = some y) : ∃ r, y = x r ∧ WaitResult s t p r := by
  cases hst with
  | waitNone d q i x' hpc hi =>
    obtain ⟨h₁, h₂⟩ := returning_goto hc hr hw hpc rfl rfl (by simp)
    cases h₁
    cases h₂
    have hcl := hfam.claims d
    rw [hpc] at hcl
    refine ⟨-1, rfl, .none fun r hpar => ?_⟩
    have := (hcl r (by omega) hpar).2
    cases this
  | waitFree d q i x' hpc hs =>
    obtain ⟨h₁, h₂⟩ := returning_goto hc hr hw hpc rfl rfl (by simp)
    cases h₁
    cases h₂
    have hcl := hfam.claims d
    rw [hpc] at hcl
    exact ⟨_, rfl, .child i hs hcl.1 rfl⟩
  | waitCopyout d q i x' hpc hs =>
    obtain ⟨h₁, h₂⟩ := returning_goto hc hr hw hpc rfl rfl (by simp)
    cases h₁
    cases h₂
    have hcl := hfam.claims d
    rw [hpc] at hcl
    exact ⟨-1, rfl, .copyout i hs hcl.1 (by simp)⟩
  | waitKilled d q x' hpc hk =>
    obtain ⟨h₁, h₂⟩ := returning_goto hc hr hw hpc rfl rfl (by simp)
    cases h₁
    cases h₂
    exact ⟨-1, rfl, .killed hk⟩
  | waitScan d q i kids x' hpc hp | waitSkip d q i kids x' hpc hp | waitKids d q i x' hpc hi
  | waitMore d q i x' hpc hs | waitSleep d q x' hpc hk =>
    cases (returning_goto hc hr hw hpc rfl rfl (by simp)).1
  | acquire d q k hpc hl =>
    have hok := hc.ok d
    rw [hpc, Ok] at hok
    cases (returning_goto hc hr hw hpc rfl rfl hok.2.2.2.2.ne_away).2
  | release d q k hpc hl =>
    have hok := hc.ok d
    rw [hpc, Ok] at hok
    cases (returning_goto hc hr hw hpc rfl rfl hok.2.2.ne_away).2
  | acquireLk d l k hpc hl =>
    have hok := hc.ok d
    rw [hpc, Ok] at hok
    cases (returning_goto hc hr hw hpc rfl rfl hok.2.2.2.2.ne_away).2
  | releaseLk d l k hpc hl =>
    have hok := hc.ok d
    rw [hpc, Ok] at hok
    cases (returning_goto hc hr hw hpc rfl rfl hok.2.2.2.ne_away).2
  | wakeupEnd d chan j k hpc hj =>
    have hok := hc.ok d
    rw [hpc, Ok] at hok
    cases (returning_goto hc hr hw hpc rfl rfl hok.ok.1.ne_away).2
  | pick d i hpc hs => exact (returning_scheduler hr hw hpc rfl rfl fun _ _ _ => rfl).elim
  | back d i hpc => exact (returning_scheduler hr hw hpc rfl rfl fun _ _ _ => rfl).elim
  | switchTo d i hpc =>
    obtain ⟨-, -, -, -, hctx⟩ := hc.thread_of_switchTo hpc
    rw [hctx, Function.update_eq_self] at hr
    exact (returning_scheduler hr hw hpc rfl rfl fun _ _ _ => rfl).elim
  | swtch d q k hpc =>
    have hok := hc.ok d
    rw [hpc, Ok] at hok
    refine (returning_scheduler hr hw hpc rfl rfl fun r hcd hr' => ?_).elim
    have hrq : r ≠ q := by
      rintro rfl
      exact hcd (hc.agent_unique hr' hok.1)
    simp [hrq]
  | preempt d q hp hl hl' =>
    cases (returning_goto hc hr hw (code_of_agent hp) rfl rfl (by simp)).1
  | allocOne d q i x' hpc hs =>
    have hoff := hc.off_cpu (c := d) (q := i) (by simp [hpc, expects]) (by simp [hpc, Pc.holds])
      (by rw [hs]; decide)
    have hcb := hc.birth client.start_holds hoff
    rw [← Control.code_birth client.start hoff] at hw hpc
    cases (returning_goto hcb hr hw hpc rfl rfl (by simp)).2
  | device e hd => exact (returning_of_waiting hw hr).elim
  | _ => cases (returning_goto hc hr hw ‹_› rfl rfl (by rintro ⟨⟩)).2

/-- A process that `wait` returns is a zombie, and a child of the caller. -/
theorem waits_step (hc : Control client.holds s) (hfam : Family s) (hst : Step client s t)
    {w : Exit × Slot} (hw : w ∈ t.hist.waits) (hn : w ∉ s.hist.waits) :
    (s.proc w.1.slot).state = .zombie ∧ (s.proc w.1.slot).parent = some w.2 ∧
      s.exit w.1.slot = w.1 := by
  have hsame : t.hist.waits = s.hist.waits → False := by
    intro he
    rw [he] at hw
    exact hn hw
  cases hst.fate hc with
  | waitFree c p i x hpc hs hproc hh =>
    have hwaits : t.hist.waits = s.hist.waits ++ [(s.exit i, p)] := by
      have := congrArg (·.2.2) hh
      exact this
    rw [hwaits, List.mem_append, List.mem_singleton] at hw
    obtain rfl := hw.resolve_left hn
    have hcl := hfam.claims c
    rw [hpc] at hcl
    exact ⟨hs, hcl.1, rfl⟩
  | quiet hq hh | alloc c p i x k hpc hs hproc hh | forkFail c p np x hpc hproc hh
  | setParent c p np pid x hpc hproc hh | setRunnable c np pid x hpc hproc hh
  | reparent c p status i hpc hi hproc hh hl hk | zombie c p status hpc hproc hh =>
    exact (hsame (congrArg (·.2.2) hh)).elim

/-- The life of processes: every process but the first has a parent that has not exited; a process
that has exited stays where it is until one call of `wait`, of its parent, returns it; `wait` returns
-1 only without children, when killed, or when the status cannot be copied out; and nobody sleeps in
`wait` while a child is a zombie and `wait_lock` is free. -/
theorem process_lifecycle (h : (machine N client init).Reachable s) :
    (∀ q, q ≠ initproc → (s.proc q).state ≠ .unused →
      ((s.proc q).state = .used → (s.proc q).parent.isSome = true) →
      ∃ r, (s.proc q).parent = some r ∧ (s.proc r).state ≠ .unused ∧ (s.proc r).state ≠ .zombie) ∧
    (s.hist.reaped.Nodup ∧ (∀ e ∈ s.hist.reaped, e ∈ s.hist.exits) ∧
      ∀ e ∈ s.hist.exits, e ∉ s.hist.reaped →
        (s.proc e.slot).state = .zombie ∧ s.exit e.slot = e) ∧
    (∀ t, Step client s t → ∀ w ∈ t.hist.waits, w ∉ s.hist.waits →
      (s.proc w.1.slot).state = .zombie ∧ (s.proc w.1.slot).parent = some w.2 ∧
        s.exit w.1.slot = w.1) ∧
    (∀ t c p x y, Step client s t → (s.code c).waiting = some (p, x) →
      (t.code c).returning = some y → ∃ r, y = x r ∧ WaitResult s t p r) ∧
    (s.lock .wait = none → ∀ p i, (s.proc p).state = .sleeping →
      (s.proc p).chan = some (.proc p) → (s.proc i).parent = some p →
      (s.proc i).state ≠ .zombie) := by
  obtain ⟨hc, hf⟩ := reachable_control h
  have hfam := reachable_family h
  have hz := reachable_zombies h
  refine ⟨?_, ⟨hz.waits, hz.reaped, hz.pending⟩, ?_, ?_, ?_⟩
  · intro q hq hu hused
    have hsome : (s.proc q).parent.isSome = true := by
      cases hs : (s.proc q).state with
      | unused => exact (hu hs).elim
      | used => exact hused hs
      | sleeping | runnable | running => exact hfam.parents.parent q hq (Or.inl (by simp [Active, hs]))
      | zombie => exact hfam.parents.parent q hq (Or.inr hs)
    obtain ⟨r, hr⟩ := Option.isSome_iff_exists.mp hsome
    have hact := hfam.parents.live q r hr
    refine ⟨r, hr, ?_, ?_⟩
    · intro he
      rw [he] at hact
      exact not_active_unused hact
    · intro he
      rw [he] at hact
      exact not_active_zombie hact
  · intro t hst w hw hn
    exact waits_step hc hfam hst hw hn
  · intro t c p x y hst hw hr
    exact wait_step hc hfam hst hw hr
  · intro hl p i hs hch hpar hst
    obtain ⟨c, hlc, -⟩ := reachable_attended h p i .wait (Or.inr ⟨hs, hch⟩) hpar (Or.inl hst)
    rw [hl] at hlc
    cases hlc

attribute [local instance] neZero_two

def childExited : Kernel 2 Unit Unit :=
  let s₁ := ((boot 2 processes ()).exec () 0 5).call 0 initproc (.fork fun _ => ())
  let s₂ := (s₁.exec () 0 16).exec () 1 9
  (s₂.call 1 secondproc (.exit 7)).exec () 1 330

theorem childExited_reachable :
    (machine 2 processes fun _ => True).Reachable childExited := by
  have h₀ : (machine 2 processes fun _ => True).Reachable (boot 2 processes ()) :=
    .init (boot_initial trivial)
  have h₁ := Reachable.call (Reachable.exec h₀ 0 5) 0 initproc () (.fork fun _ => ())
    (by decide +kernel) trivial
  exact Reachable.exec (Reachable.call (Reachable.exec (Reachable.exec h₁ 0 16) 1 9) 1 secondproc ()
    (.exit 7) (by decide +kernel) trivial) 1 330

theorem process_lifecycle_exited : childExited.hist.exits = [⟨secondproc, 1, 2, 7⟩] ∧
    (childExited.proc secondproc).state = .zombie ∧
    ∃ r, (childExited.proc secondproc).parent = some r ∧ (childExited.proc r).state ≠ .unused ∧
      (childExited.proc r).state ≠ .zombie := by
  have hs : (childExited.proc secondproc).state = .zombie := by decide +kernel
  refine ⟨by decide +kernel, hs, ?_⟩
  exact (process_lifecycle childExited_reachable).1 secondproc (by decide) (by rw [hs]; simp)
    (by rw [hs]; simp)

end Xv6.Sched
