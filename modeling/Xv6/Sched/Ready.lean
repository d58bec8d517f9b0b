import Xv6.Sched.Life

/-! What the thread of a process knows of parents without holding a lock: the child of `fork` has no
parent at first, and has one where it is made runnable. -/
namespace Xv6.Sched

open Proc (ProcState)
open Pc Kernel

variable {N : ℕ} {σ K : Type} {client : Client σ K} {init : σ → Prop} {s t : Kernel N σ K}
  {c d : Fin N} {p q : Slot} {f : K → ℕ → Bool} {me : Option Slot} {k k' : Pc K}

def Kernel.parent (s : Kernel N σ K) (p : Slot) : Option Slot := (s.proc p).parent

namespace Pc

/-- What follows the acquisition of a lock other than a process's. -/
def Starts : Pc K → Prop
  | reparent p _ i => p ≠ initproc ∧ i = 0
  | waitScan _ i _ _ => i = 0
  | setParent .. | .client _ => True
  | _ => False

/-- The child of `fork` has no parent at first, and has one where it is made runnable, and `wait` and
`exit` start from the first entry. -/
def Ready (parent : Slot → Option Slot) : Pc K → Prop
  | acquireLk _ k => k.Starts
  | acquire _ k | release _ k | releaseLk _ k | yielding _ k | sched _ k | swtch _ k
  | sleeping _ _ k | tidy _ k | wakeup _ _ k | wakeOne _ _ k => k.Ready parent
  | fork _ np _ => parent np = none
  | setRunnable np _ _ => (parent np).isSome = true
  | _ => True

theorem Ready.mono {f g : Slot → Option Slot} (h : k.Ready f)
    (hfg : ∀ np, k.forking = some np → (g np).isSome = (f np).isSome) : k.Ready g := by
  induction k with
  | acquireLk l k ih => exact h
  | acquire p k ih | release p k ih | releaseLk p k ih | yielding p k ih | sched p k ih
  | swtch p k ih | sleeping chan p k ih | tidy p k ih | wakeup chan j k ih | wakeOne chan j k ih =>
    exact ih h hfg
  | fork p np x =>
    have := hfg np rfl
    rw [show f np = none from h] at this
    simpa [Ready] using this
  | setRunnable np pid x => exact (hfg np rfl).trans h
  | _ => trivial

theorem Starts.ready {f : Slot → Option Slot} (h : k.Starts) : k.Ready f := by
  cases k with
  | reparent | waitScan | setParent | client => trivial
  | _ => exact h.elim

end Pc

/-- Every process but the first has a parent, which has not exited. -/
structure Parents (s : Kernel N σ K) : Prop where
  live : ∀ q r, (s.proc q).parent = some r → Active (s.proc r).state
  unused : ∀ q, (s.proc q).state = .unused → (s.proc q).parent = none
  parent : ∀ q, q ≠ initproc → Active (s.proc q).state ∨ (s.proc q).state = .zombie →
    (s.proc q).parent.isSome = true
  first : Active (s.proc initproc).state

/-- What the threads of the processes and the schedulers are ready for. -/
structure Readies (s : Kernel N σ K) : Prop where
  thread : ∀ q, (s.thread q).Ready s.parent
  scheduler : ∀ c, s.agent c = none → ∀ g, (s.cpu c).pc.Ready g

namespace Readies

theorem code (h : Readies s) (c : Fin N) : (s.code c).Ready s.parent := by
  cases ha : s.agent c with
  | none =>
    rw [code_of_scheduler ha]
    exact h.scheduler c ha _
  | some p =>
    rw [code_of_agent ha]
    exact h.thread p

theorem same (h : Readies s) (hth : t.thread = (s.goto c k).thread)
    (hcpu : t.cpu = (s.goto c k).cpu) (hpc : s.code c = k') (hk : k ≠ .away)
    (hpar : ∀ q, (t.proc q).parent = (s.proc q).parent) (hr : ∀ g, k'.Ready g → k.Ready g) :
    Readies t := by
  have hpar : t.parent = s.parent := funext hpar
  constructor
  · intro q
    rw [hth, thread_goto, hpar]
    split_ifs with hq
    · apply hr
      rw [← hpc]
      exact h.code c
    · exact h.thread q
  · intro d hd g
    rw [agent_congr hcpu, agent_goto hk] at hd
    rw [hcpu]
    by_cases hdc : d = c
    · subst hdc
      rw [show ((s.goto d k).cpu d).pc = k by simp [Kernel.goto, hd]]
      apply hr
      rw [← hpc, code_of_scheduler hd]
      exact h.scheduler d hd g
    · rw [cpu_goto_of_ne hdc]
      exact h.scheduler d hd g

/-- A process moves on and parents change, but not those of the children of other calls of
`fork`. -/
theorem change (h : Readies s) (hth : t.thread = (s.goto c k).thread)
    (hcpu : t.cpu = (s.goto c k).cpu) (hp : s.agent c = some p) (hk : k ≠ .away)
    (hr : k.Ready t.parent)
    (hne : ∀ q np, q ≠ p → (s.thread q).forking = some np →
      (t.parent np).isSome = (s.parent np).isSome) : Readies t := by
  constructor
  · intro q
    rw [hth, thread_goto]
    split_ifs with hq
    · exact hr
    · have hqp : q ≠ p := by
        rintro rfl
        exact hq hp
      exact (h.thread q).mono (hne q · hqp)
  · intro d hd g
    rw [agent_congr hcpu, agent_goto hk] at hd
    have hdc : d ≠ c := by
      rintro rfl
      rw [hp] at hd
      cases hd
    rw [hcpu, cpu_goto_of_ne hdc]
    exact h.scheduler d hd g

theorem of_cpu (h : Readies s) {x : Cpu K} (hcpu : t.cpu = Function.update s.cpu c x)
    (hth : ∀ q, (t.thread q).Ready s.parent) (hpar : ∀ q, (t.proc q).parent = (s.proc q).parent)
    (hx : ∀ g, x.pc.Ready g) : Readies t := by
  have hpar : t.parent = s.parent := funext hpar
  constructor
  · rw [hpar]
    exact hth
  · intro d hd g
    rw [hcpu]
    by_cases hdc : d = c
    · rw [hdc, Function.update_self]
      exact hx g
    · rw [Function.update_of_ne hdc]
      apply h.scheduler d
      simpa [agent, hcpu, hdc] using hd

theorem birth (h : Readies s) {start : K} {i : Slot} : Readies (s.birth start i) := by
  have hpar : (s.birth start i).parent = s.parent := by
    funext q
    by_cases hq : q = i
    · simp [Kernel.parent, Kernel.birth, hq]
    · simp [Kernel.parent, Kernel.birth, hq]
  constructor
  · intro q
    rw [hpar]
    by_cases hq : q = i
    · rw [hq, show (s.birth start i).thread i = .release i (.client start) by simp [Kernel.birth]]
      trivial
    · rw [show (s.birth start i).thread q = s.thread q by simp [Kernel.birth, hq]]
      exact h.thread q
  · exact h.scheduler

/-- The saved contexts are ready to be switched to. -/
theorem step (hc : Control client.holds s) (hf : Forks s) (hp : Parents s) (h : Readies s)
    (hst : Step client s t) : Readies t := by
  cases hst with
  | acquire c p k hpc hl =>
    have hok := hc.ok c
    rw [hpc, Ok] at hok
    exact h.same rfl rfl hpc hok.2.2.2.2.ne_away (by simp) fun _ hr => hr
  | release c p k hpc hl =>
    have hok := hc.ok c
    rw [hpc, Ok] at hok
    exact h.same rfl rfl hpc hok.2.2.ne_away (by simp) fun _ hr => hr
  | acquireLk c l k hpc hl =>
    have hok := hc.ok c
    rw [hpc, Ok] at hok
    exact h.same rfl rfl hpc hok.2.2.2.2.ne_away (by simp)
      fun _ hr => Starts.ready hr
  | releaseLk c l k hpc hl =>
    have hok := hc.ok c
    rw [hpc, Ok] at hok
    exact h.same rfl rfl hpc hok.2.2.2.ne_away (by simp) fun _ hr => hr
  | wakeupEnd c chan j k hpc hj =>
    have hok := hc.ok c
    rw [hpc, Ok] at hok
    exact h.same rfl rfl hpc hok.ok.1.ne_away (by simp) fun _ hr => hr
  | pick c i hpc hr =>
    exact h.of_cpu rfl h.thread (by simp [apply_ite Process.parent]) fun _ => trivial
  | switchTo c i hpc =>
    obtain ⟨-, -, -, -, hctx⟩ := hc.thread_of_switchTo hpc
    rw [hctx, Function.update_eq_self]
    exact h.of_cpu rfl h.thread (fun _ => rfl) fun _ => trivial
  | back c i hpc => exact h.of_cpu rfl h.thread (fun _ => rfl) fun _ => trivial
  | swtch c q k hpc =>
    have hok := hc.ok c
    rw [hpc, Ok] at hok
    rw [hc.back c q hok.1]
    refine h.of_cpu rfl (fun r => ?_) (by simp [apply_ite Process.parent]) fun _ => trivial
    by_cases hr : r = q
    · have hq : k.Ready s.parent := by
        have := h.thread q
        rwa [← code_of_agent hok.1, hpc] at this
      simpa [hr] using hq
    · simpa [hr] using h.thread r
  | preempt c q hp hl hl' =>
    exact h.same rfl rfl (code_of_agent hp) (by simp) (by simp) fun _ hr => hr
  | allocOne c q i x hpc hs =>
    have hok := hc.ok c
    rw [hpc, Ok] at hok
    have hag : (s.birth client.start i).agent c = some q := hok.1
    refine (h.birth (i := i)).change rfl rfl hag (by simp) ?_ ?_
    · have := hp.unused i hs
      simpa [Ready, Kernel.parent, Kernel.birth] using this
    · simp [Kernel.parent]
  | killSleeping c pid j x hpc hp hs =>
    refine h.same rfl rfl hpc (by simp) (fun q => ?_) fun _ hr => hr
    by_cases hq : q = j
    · simp [hq]
    · simp [hq]
  | waitSleep c q x hpc hk => exact h.same rfl rfl hpc (by simp) (by simp) fun _ _ => rfl
  | callExit c q x status hpc hp hi hcall =>
    exact h.same rfl rfl hpc (by simp) (by simp) fun _ _ => ⟨hi, rfl⟩
  | callWait c q x k hpc hp hcall => exact h.same rfl rfl hpc (by simp) (by simp) fun _ _ => rfl
  | fork c q np x hpc => exact h.same rfl rfl hpc (by simp) (by simp) fun _ _ => trivial
  | forkFail c q np x hpc =>
    have hok := hc.ok c
    rw [hpc, Ok] at hok
    refine h.change rfl rfl hok.1 (by simp) trivial fun r np' hr hnp' => ?_
    have hne : np' ≠ np := by
      rintro rfl
      apply hr
      apply hf.unique r q np' hnp'
      rw [← code_of_agent hok.1, hpc]
      rfl
    simp [Kernel.parent, hne]
  | setParent c q np pid x hpc =>
    have hok := hc.ok c
    rw [hpc, Ok] at hok
    refine h.change rfl rfl hok.1 (by simp) ?_ fun r np' hr hnp' => ?_
    · simp [Ready, Kernel.parent]
    · have hne : np' ≠ np := by
        rintro rfl
        apply hr
        apply hf.unique r q np' hnp'
        rw [← code_of_agent hok.1, hpc]
        rfl
      simp [Kernel.parent, hne]
  | reparent c q status i hpc hpar =>
    have hok := hc.ok c
    rw [hpc, Ok] at hok
    refine h.change rfl rfl hok (by simp) trivial fun r np' hr hnp' => ?_
    by_cases hne : np' = i
    · simp [Kernel.parent, hne, hpar]
    · simp [Kernel.parent, hne]
  | waitFree c q i x hpc hs =>
    have hok := hc.ok c
    rw [hpc, Ok] at hok
    refine h.change rfl rfl hok.1 (by simp) trivial fun r np' hr hnp' => ?_
    have hne : np' ≠ i := by
      rintro rfl
      rw [hf.state r np' hnp'] at hs
      cases hs
    simp [Kernel.parent, hne]
  | setRunnable c np pid x hpc =>
    exact h.same rfl rfl hpc (by simp) (by simp [apply_ite Process.parent]) fun _ _ => trivial
  | device d hd => exact ⟨h.thread, h.scheduler⟩
  | _ =>
    exact h.same rfl rfl ‹_› (by rintro ⟨⟩) (by simp [apply_ite Process.parent]) (by exact fun _ hr => hr)

end Readies

end Xv6.Sched
