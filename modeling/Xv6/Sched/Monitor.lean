import Xv6.Sched.Asleep
import Xv6.Sched.Local

/-! A rule for conditions that processes sleep on. Processes sleep on a channel only while the
condition holds, with one lock held, and code that ends the condition, with the lock held, calls
`wakeup` before it releases the lock. Then, while the lock is free, the condition holds of every
process that sleeps on the channel. -/
namespace Xv6.Sched

open Proc (ProcState)
open Pc Kernel

variable {N : ℕ} {σ K : Type} {client : Client σ K} {init : σ → Prop} {s t : Kernel N σ K}
  {c d : Fin N} {p : Slot} {k k' : Pc K} {lk : Lock}

/-- What a call may be that is made where `wakeup(chan)` is due before the lock `lk` is released. -/
def Call.Pays (owes : K → Bool) (chan : Chan) (lk : Lock) : Call K → Prop
  | acquire _ k => owes k = true
  | release m k => .other m ≠ lk ∧ owes k = true
  | wakeup m k => .other m = chan ∨ owes k = true
  | killed k => ∀ b, owes (k b) = true
  | sleep .. => False
  | _ => True

/-- Where `owes` is set, the lock `lk` is held, and `wakeup(chan)` is due before it is released. -/
structure Pledge (client : Client σ K) (chan : Chan) (lk : Lock) (owes : K → Bool) : Prop where
  held : ∀ {x}, owes x = true → (Pc.client x).holdsLk client.holds lk = true
  pays : ∀ {p x d a}, client.calls p x d a → owes x = true → a.Pays owes chan lk
  keeps : ∀ {p x d y e}, client.moves p x d y e → owes x = true → owes y = true

/-- Code that sleeps on the channel `n` with the lock `l` only while `R` holds, where `A` is what it
establishes locally. Where `owes` is set, `R` may have ceased to hold and `wakeup(n)` is due. -/
structure Monitor (client : Client σ K) (A : Slot → K → σ → Prop) (n l : ℕ) (R : σ → Prop)
    (owes : K → Bool) : Prop extends Pledge client (.other n) (.other l) owes where
  sleeps : ∀ {p x d m k}, A p x d → client.calls p x d (.sleep n m k) → m = l ∧ R d
  moves : ∀ {p x d y e}, client.moves p x d y e → R d → R e ∨ owes y = true
  device : ∀ {d e}, client.device d e → R d → R e

theorem Pledge.nothing (client : Client σ K) (chan : Chan) (lk : Lock) :
    Pledge client chan lk fun _ => false := ⟨(by simp), (by simp), (by simp)⟩

/-- Whether the process that is there wakes up process `p`, if it sleeps on `chan`, before it releases
the lock. -/
def Pc.wakes (owes : K → Bool) (chan : Chan) (p : Slot) : Pc K → Bool
  | .client x => owes x
  | acquireLk _ (.client x) | releaseLk _ (.client x) => owes x
  | readKilled _ x => owes (x false) && owes (x true)
  | wakeup chan' j k => decide (chan' = chan ∧ j ≤ p) || k.wakes owes chan p
  | wakeOne chan' j k => decide (chan' = chan ∧ (j : ℕ) ≤ p) || k.wakes owes chan p
  | acquire _ k | release _ k => k.wakes owes chan p
  | _ => false

structure Guarded (n l : ℕ) (R : σ → Prop) (owes : K → Bool) (s : Kernel N σ K) : Prop where
  lock : ∀ p lk, Napping s p (.other n) lk → lk = .other l
  cond : ∀ p lk, Blocked s p (.other n) lk →
    R s.data ∨ ∃ c, s.lock (.other l) = some c ∧ (s.code c).wakes owes (.other n) p = true

variable {n l : ℕ} {chan : Chan} {A : Slot → K → σ → Prop} {R : σ → Prop} {owes : K → Bool}

theorem Control.wakes_goto (hc : Control client.holds s) (hth : t.thread = (s.goto c k).thread)
    (hcpu : t.cpu = (s.goto c k).cpu) (hpc : s.code c = k') (hk : k ≠ .away)
    (hw : k'.wakes owes chan p = true → k.wakes owes chan p = true)
    (hd : (s.code d).wakes owes chan p = true) : (t.code d).wakes owes chan p = true := by
  rw [code_congr hcpu hth, hc.code_goto hk]
  split_ifs with hdc
  · apply hw
    rwa [← hpc, ← hdc]
  · exact hd

theorem Pc.expects_of_naps {st : ProcState} (hn : k.naps = some (chan, lk))
    (he : k.expects st) : st = .running := by
  induction k with
  | acquire q k ih => exact he
  | release q k ih => exact ih hn he
  | releaseLk m k ih => exact ih hn he
  | sleeping chan' q k ih => exact he
  | _ => cases hn

theorem Control.not_blocked_of_state (hc : Control client.holds s)
    (h₁ : (s.proc p).state ≠ .running) (h₂ : (s.proc p).state ≠ .sleeping) :
    ¬Blocked s p chan lk := by
  rintro (⟨d, hd, hn⟩ | ⟨hs, -⟩)
  · have hst := hc.state d p (proc_of_agent hd)
    rw [code_of_agent hd] at hst
    exact h₁ (expects_of_naps hn hst)
  · exact h₂ hs

theorem Step.keeps_lock (hst : Step client s t) (hd : s.lock lk = some d) :
    t.lock lk = some d ∨ ∃ k, s.code d = .releaseLk lk k := by
  cases hst with
  | acquireLk c m k hpc hl =>
    left
    have hne : lk ≠ m := by
      rintro rfl
      rw [hl] at hd
      cases hd
    simpa [enterLock, hne] using hd
  | releaseLk c m k hpc hl =>
    by_cases hne : lk = m
    · subst hne
      obtain rfl : c = d := Option.some.inj (hl.symm.trans hd)
      exact Or.inr ⟨k, hpc⟩
    · left
      simpa [hne] using hd
  | _ => exact Or.inl (by simpa [enterSleep, enterWakeup, rouse, Kernel.birth] using hd)

theorem wakes_of_scheduler {x : Cpu K} (hcpu : t.cpu = Function.update s.cpu c x)
    (hth : ∀ q, s.agent d = some q → t.thread q = s.thread q) (hdc : d ≠ c)
    (hw : (s.code d).wakes owes chan p = true) : (t.code d).wakes owes chan p = true := by
  have hag : t.agent d = s.agent d := by simp [agent, hcpu, hdc]
  have hcode : t.code d = s.code d := by
    unfold code
    rw [hag, hcpu, Function.update_of_ne hdc]
    cases ha : s.agent d with
    | none => rfl
    | some q => exact hth q ha
  rwa [hcode]

theorem Pledge.wakes (m : Pledge client chan lk owes) (hc : Control client.holds s)
    (hct : Control client.holds t) {l₁ l₂ : Lock} (hlock : ∀ p l, Napping s p chan l → l = lk)
    (hst : Step client s t) (hd : s.lock lk = some d) (hw : (s.code d).wakes owes chan p = true)
    (hbs : Blocked s p chan l₁) (hbt : Blocked t p chan l₂) :
    (t.code d).wakes owes chan p = true := by
  have hfree : ∀ {x : K}, (∀ m, client.holds x m = false) → owes x = true → False := by
    intro x hx ho
    have := m.held ho
    rw [holdsLk_client_of_none hx] at this
    cases this
  have hne : ∀ {c k}, s.code c = k → k.wakes owes chan p = false → d ≠ c := by
    rintro c k hk hf rfl
    rw [hk, hf] at hw
    cases hw
  cases hst with
  | acquire c q k hpc hl =>
    have hok := hc.ok c
    rw [hpc, Ok] at hok
    exact hc.wakes_goto rfl rfl hpc hok.2.2.2.2.ne_away id hw
  | release c q k hpc hl =>
    have hok := hc.ok c
    rw [hpc, Ok] at hok
    exact hc.wakes_goto rfl rfl hpc hok.2.2.ne_away id hw
  | acquireLk c m' k hpc hl =>
    have hok := hc.ok c
    rw [hpc, Ok] at hok
    refine hc.wakes_goto rfl rfl hpc hok.2.2.2.2.ne_away ?_ hw
    cases k <;> simp [Pc.wakes]
  | releaseLk c m' k hpc hl =>
    have hok := hc.ok c
    rw [hpc, Ok] at hok
    refine hc.wakes_goto rfl rfl hpc hok.2.2.2.ne_away ?_ hw
    cases k <;> simp [Pc.wakes]
  | pick c i hpc hr => exact wakes_of_scheduler rfl (fun _ _ => rfl) (hne hpc rfl) hw
  | switchTo c i hpc =>
    obtain ⟨-, -, -, -, hctx⟩ := hc.thread_of_switchTo hpc
    rw [hctx, Function.update_eq_self]
    exact wakes_of_scheduler rfl (fun _ _ => rfl) (hne hpc rfl) hw
  | back c i hpc => exact wakes_of_scheduler rfl (fun _ _ => rfl) (hne hpc rfl) hw
  | swtch c q k hpc =>
    have hok := hc.ok c
    rw [hpc, Ok] at hok
    have hdc := hne hpc rfl
    refine wakes_of_scheduler rfl (fun r hr => ?_) hdc hw
    have hrq : r ≠ q := by
      rintro rfl
      exact hdc (hc.agent_unique hr hok.1)
    simp [hrq]
  | preempt c q hp hl hl' =>
    have hdc : d ≠ c := by
      rintro rfl
      exact hl' _ hd
    rwa [hc.code_goto (k := .acquire q (.yielding q (s.thread q))) (by simp), if_neg hdc]
  | wakeupSelf c chan' j k hpc hj =>
    have hok := hc.ok c
    rw [hpc, Ok] at hok
    -- the caller itself is not asleep
    have hpj : (p : ℕ) ≠ j := by
      intro he
      obtain rfl : p = j := Fin.ext he
      have hag : s.agent c = some p := by
        cases ha : s.agent c with
        | some q => exact (proc_of_agent ha).symm.trans hj
        | none =>
          have hr := hc.proc c ha
          rw [← code_of_scheduler ha, hpc, show (s.cpu c).proc = some p from hj] at hr
          cases hr
      have hrun := hc.running_of_unlocked hag (by simp [hpc, holds, hok.ok.2.1])
      exact not_blocked hag (by rw [hpc]; rfl) (by rw [hrun]; decide) hbs
    refine hc.wakes_goto rfl rfl hpc (by simp) ?_ hw
    simp only [Pc.wakes, Bool.or_eq_true, decide_eq_true_eq]
    refine Or.imp (fun h => ⟨h.1, ?_⟩) id
    omega
  | wakeupEnd c chan' j k hpc hj =>
    have hok := hc.ok c
    rw [hpc, Ok] at hok
    refine hc.wakes_goto rfl rfl hpc hok.ok.1.ne_away ?_ hw
    have := p.isLt
    simp only [Pc.wakes, Bool.or_eq_true, decide_eq_true_eq]
    rintro (⟨-, hle⟩ | h)
    · omega
    · exact h
  | wakeOne c chan' j k hpc hs hchan =>
    have hpj : (p : ℕ) ≠ j := by
      intro he
      obtain rfl : p = j := Fin.ext he
      exact hct.not_blocked_of_state (by simp) (by simp) hbt
    refine hc.wakes_goto (k := .release j (.wakeup chan' (j + 1) k)) rfl rfl hpc (by simp) ?_ hw
    simp only [Pc.wakes, Bool.or_eq_true, decide_eq_true_eq]
    refine Or.imp (fun h => ⟨h.1, ?_⟩) id
    omega
  | wakeNone c chan' j k hpc hs =>
    have hok := hc.ok c
    rw [hpc, Ok] at hok
    rw [hc.code_goto (k := .release j (.wakeup chan' (j + 1) k)) (by simp)]
    split_ifs with hdc
    · subst hdc
      rw [hpc] at hw
      simp only [Pc.wakes, Bool.or_eq_true, decide_eq_true_eq] at hw ⊢
      rcases hw with ⟨rfl, hle⟩ | h
      · refine Or.inl ⟨rfl, ?_⟩
        have hpj : (p : ℕ) ≠ j := by
          intro he
          obtain rfl : p = j := Fin.ext he
          refine hs (hc.slept_of_locked (c := d) (by simp [hpc, holds]) (by rw [hpc]; rfl) hbs ?_)
          intro d' hd' hl
          rcases hbs with hn | hs'
          · obtain rfl := hlock p l₁ hn
            obtain rfl : d = d' := Option.some.inj (hd.symm.trans hl)
            exact hok.2 hd'
          · exact hs hs'
        omega
      · exact Or.inr h
    · exact hw
  | readKilled c q x hpc =>
    refine hc.wakes_goto rfl rfl hpc (by simp) ?_ hw
    cases (s.proc q).killed <;> simp +contextual [Pc.wakes]
  | allocOne c q i x hpc hs =>
    have hoff := hc.off_cpu (c := c) (q := i) (by simp [hpc, expects]) (by simp [hpc, holds])
      (by rw [hs]; decide)
    have hdc := hne hpc rfl
    have hcb := hc.birth client.start_holds hoff
    rwa [hcb.code_goto (k := .fork q i x) (by simp), if_neg hdc, Control.code_birth _ hoff]
  | callAcquire c q x m' k hpc hp hcall =>
    exact hc.wakes_goto rfl rfl hpc (by simp) (fun ho => m.pays hcall ho) hw
  | callRelease c q x m' k hpc hp hcall =>
    exact hc.wakes_goto rfl rfl hpc (by simp) (fun ho => (m.pays hcall ho).2) hw
  | callSleep c q x n m' k hpc hp hcall =>
    exact hc.wakes_goto rfl rfl hpc (by rintro ⟨⟩) (fun ho => (m.pays hcall ho).elim) hw
  | callWakeup c q x n k hpc hp hcall =>
    refine hc.wakes_goto rfl rfl hpc (by simp) (fun ho => ?_) hw
    rcases m.pays hcall ho with h | h
    · simp [Pc.wakes, h]
    · simp [Pc.wakes, h]
  | callKilled c q x k hpc hp hcall =>
    refine hc.wakes_goto rfl rfl hpc (by simp) (fun ho => ?_) hw
    have := m.pays hcall ho
    simp [Pc.wakes, this _]
  | callSetkilled c q x k hpc hp hcall =>
    exact hc.wakes_goto rfl rfl hpc (by simp)
      (fun ho => (hfree (fun m => (client.calls_keeps hcall m).1) ho).elim) hw
  | callKill c q x pid k hpc hp hcall =>
    exact hc.wakes_goto (k := .kill pid 0 k) rfl rfl hpc (by simp)
      (fun ho => (hfree (fun m => (client.calls_keeps hcall m).1) ho).elim) hw
  | callFork c q x k hpc hp hcall =>
    exact hc.wakes_goto rfl rfl hpc (by simp)
      (fun ho => (hfree (fun m => (client.calls_keeps hcall m).1) ho).elim) hw
  | callExit c q x status hpc hp hi hcall =>
    exact hc.wakes_goto rfl rfl hpc (by simp)
      (fun ho => (hfree (client.calls_keeps hcall) ho).elim) hw
  | callWait c q x k hpc hp hcall =>
    exact hc.wakes_goto rfl rfl hpc (by simp)
      (fun ho => (hfree (fun m => (client.calls_keeps hcall m).1) ho).elim) hw
  | move c q x y e hpc hp hmove =>
    exact hc.wakes_goto (k := .client y) rfl rfl hpc (by simp) (m.keeps hmove) hw
  | device e hdev => exact hw
  | _ => exact hc.wakes_goto rfl rfl ‹_› (by simp) (by simp [Pc.wakes]) hw

namespace Monitor

theorem data (m : Monitor client A n l R owes) (hct : Control client.holds t)
    (hst : Step client s t) (hr : R s.data) :
    R t.data ∨ ∃ c, t.lock (.other l) = some c ∧ (t.code c).wakes owes (.other n) p = true := by
  cases hst with
  | move c q x y e hpc hp hmove =>
    refine (m.moves hmove hr).imp id fun ho => ⟨c, ?_⟩
    have hcode : ({ s.goto c (.client y) with data := e } : Kernel N σ K).code c = .client y :=
      code_goto_self (by simp)
    rw [hcode]
    refine ⟨(hct.lock c _).mpr ?_, ho⟩
    rw [hcode]
    exact m.held ho
  | device e hdev => exact Or.inl (m.device hdev hr)
  | _ => exact Or.inl (by simpa [enterLock, enterSleep, enterWakeup, rouse, Kernel.birth] using hr)

/-- A sleeper still has its reason `R`, or the process that ended it is about to wake it. -/
theorem step (m : Monitor client A n l R owes) (hc : Control client.holds s) (hf : Forks s)
    (ha : Places client A s) (h : Guarded n l R owes s) (hst : Step client s t) : Guarded n l R owes t := by
  have hct := hc.step hf hst
  constructor
  · intro p lk hn
    rcases hst.napping hc hn with hn | ⟨he, -⟩
    · exact h.lock p lk hn
    · cases he with
      | call c x _ l' k hpc hq hcall => rw [(m.sleeps (ha.here hc hpc hq) hcall).1]
  · intro p lk hb
    have hblocked : (∃ lk', Blocked s p (.other n) lk') ∨ R t.data := by
      rcases hst.blocked hc hb with hbs | ⟨he, hdata⟩
      · exact Or.inl hbs
      · cases he with
        | call c x _ l' k hpc hq hcall =>
          rw [hdata]
          exact Or.inr (m.sleeps (ha.here hc hpc hq) hcall).2
    rcases hblocked with ⟨lk', hbs⟩ | hr
    · rcases h.cond p lk' hbs with hr | ⟨d, hd, hw⟩
      · exact m.data hct hst hr
      · right
        refine ⟨d, ?_, ?_⟩
        · rcases hst.keeps_lock hd with hl | ⟨k, hk⟩
          · exact hl
          · have hok := hc.ok d
            rw [hk, Ok] at hok
            rw [hk] at hw
            cases k with
            | client x =>
              have := hok.1
              rw [m.held hw] at this
              cases this
            | _ => cases hw
        · exact m.toPledge.wakes hc hct h.lock hst hd hw hbs hb
    · exact Or.inl hr

/-- While the lock is free, the condition holds of every process that sleeps on the channel. -/
theorem asleep (m : Monitor client A n l R owes) (hA : client.Local A) (h : (machine N client init).Reachable s)
    (hl : s.lock (.other l) = none) (hp : (s.proc p).state = .sleeping)
    (hn : (s.proc p).chan = some (.other n)) : R s.data := by
  have hg : Guarded n l R owes s := by
    apply h.invariant (I := Guarded n l R owes)
    · intro s hs
      have hno : ∀ p lk, ¬Blocked s p (.other n) lk := by
        intro p lk hb
        refine (Initial.control hs).1.not_blocked_of_state ?_ ?_ hb
        all_goals
          by_cases hi : p = initproc
          · rw [hi, hs.first]
            simp
          · rw [(hs.others p hi).1]
            simp
      exact ⟨fun p lk hb => (hno p lk (Or.inl hb)).elim, fun p lk hb => (hno p lk hb).elim⟩
    · intro s t hr hs hst
      obtain ⟨hc, hf⟩ := reachable_control hr
      exact m.step hc hf (hA.reachable hr) hs hst
  rcases hg.cond p (.other l) (Or.inr ⟨hp, hn⟩) with hr | ⟨c, hc, -⟩
  · exact hr
  · rw [hl] at hc
    cases hc

end Monitor

end Xv6.Sched
