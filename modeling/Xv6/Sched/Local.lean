import Xv6.Sched.Exclusion

/-! A rule for what holds of each process at each place of the code outside `proc.c`: what a process
establishes for itself holds wherever it goes on, if no other process destroys it. Where a process
holds a lock, only the processes that do not hold it have to be considered. -/
namespace Xv6.Sched

open Proc (ProcState)
open Pc Kernel

variable {N : ℕ} {σ K : Type} {client : Client σ K} {init : σ → Prop} {s t : Kernel N σ K}
  {c : Fin N} {p q : Slot} {f : K → ℕ → Bool} {k k' : Pc K} {y : K}

def Call.Returns : Call K → K → Prop
  | acquire _ k, y | release _ k, y | sleep _ _ k, y | wakeup _ k, y | setkilled k, y => y = k
  | killed k, y => ∃ b, y = k b
  | kill _ k, y | fork k, y | wait k, y => ∃ r, y = k r
  | exit _, _ => False

/-- A place where a lock has just been acquired, by `acquire` or on the way out of `sleep`. -/
def Client.Entry (client : Client σ K) (y : K) : Prop :=
  ∃ p x d l, client.calls p x d (.acquire l y) ∨ ∃ n, client.calls p x d (.sleep n l y)

/-- The place of the code outside that the thread goes on at when it has acquired a lock. -/
def Pc.Waits : Pc K → K → Prop
  | acquireLk (.other _) (.client x), y => y = x
  | acquire _ k, y | release _ k, y | acquireLk .wait k, y | releaseLk _ k, y | yielding _ k, y
  | sched _ k, y | swtch _ k, y | sleeping _ _ k, y | tidy _ k, y | wakeup _ _ k, y
  | wakeOne _ _ k, y => k.Waits y
  | _, _ => False

/-- The places of the code outside where the thread goes on without acquiring a lock of that code. -/
def Pc.Rest : Pc K → K → Prop
  | acquire _ k, y | release _ k, y | acquireLk .wait k, y | releaseLk _ k, y | yielding _ k, y
  | sched _ k, y | swtch _ k, y | sleeping _ _ k, y | tidy _ k, y | wakeup _ _ k, y
  | wakeOne _ _ k, y => k.Rest y
  | .client x, y | setKilled _ x, y => y = x
  | readKilled _ x, y => ∃ b, y = x b
  | kill _ _ x, y | killOne _ _ x, y | allocproc _ _ x, y | allocOne _ _ x, y | fork _ _ x, y
  | setParent _ _ _ x, y | setRunnable _ _ x, y | waitScan _ _ _ x, y | waitOne _ _ x, y
  | waitKilled _ x, y => ∃ r, y = x r
  | _, _ => False

/-- The places of the code outside where the thread can go on. -/
def Pc.GoesOn (k : Pc K) (y : K) : Prop := k.Rest y ∨ k.Waits y

/-- What `A` says of a process at a place, its calls and its own moves establish, and the moves of
others and of devices keep. -/
structure Client.Local (client : Client σ K) (A : Slot → K → σ → Prop) : Prop where
  start : ∀ p d, A p client.start d
  calls : ∀ {p x d a y}, A p x d → client.calls p x d a → a.Returns y → A p y d
  moves : ∀ {p x d y e}, A p x d → client.moves p x d y e → A p y e
  stable : ∀ {p q x d y e z}, A p x d → client.moves p x d y e → q ≠ p →
    (client.Entry z ∨ ∀ l, client.holds x l = true → client.holds z l = false) → A q z d → A q z e
  device : ∀ {q d e z}, client.device d e → A q z d → A q z e

def Live (s : Kernel N σ K) (p : Slot) : Prop :=
  (s.proc p).state ≠ .unused ∧ (s.proc p).state ≠ .zombie

structure Places (client : Client σ K) (A : Slot → K → σ → Prop) (s : Kernel N σ K) : Prop where
  waits : ∀ p y, (s.thread p).Waits y → client.Entry y
  rest : ∀ p y, Live s p → (s.thread p).GoesOn y → A p y s.data

theorem Pc.holdsLk_of_rest {me : Option Slot} {m : ℕ} (hok : k.Ok f me) (hy : k.Rest y)
    (hm : f y m = true) : k.holdsLk f (.other m) = true := by
  induction k with
  | acquire p k ih => exact ih hok.2.2.2.2 hy
  | release p k ih => exact ih hok.2.2 hy
  | acquireLk l k ih =>
    cases l with
    | wait => simpa [holdsLk] using ih hok.2.2.2.2 hy
    | other n => exact hy.elim
  | releaseLk l k ih => simp [holdsLk, ih hok.2.2.2 hy]
  | client x =>
    obtain rfl : y = x := hy
    exact hm
  | yielding p k ih =>
    have := ih hok.2.2.2.2.2 hy
    rw [hok.2.2.1] at this
    cases this
  | sched p k ih | swtch p k ih =>
    rcases hok.2 with rfl | hk
    · exact hy.elim
    · have := ih hk.2.2.2.2 hy
      rw [hk.2.1] at this
      cases this
  | sleeping chan p k ih =>
    obtain ⟨-, hk⟩ := hok
    cases hk with
    | client n l x _ => exact hy.elim
    | wait x hx =>
      obtain ⟨r, rfl⟩ : ∃ r, y = x r := hy
      rw [hx] at hm
      cases hm
  | tidy p k ih =>
    obtain ⟨-, chan, hk⟩ := hok
    cases hk with
    | client n l x _ => exact hy.elim
    | wait x hx =>
      obtain ⟨r, rfl⟩ : ∃ r, y = x r := hy
      rw [hx] at hm
      cases hm
  | wakeup chan j k ih => exact ih hok.ok.1 hy
  | wakeOne chan j k ih => exact ih hok.1.ok.1 hy
  | setKilled p x =>
    obtain rfl : y = x := hy
    rw [hok.2] at hm
    cases hm
  | readKilled p x =>
    obtain ⟨b, rfl⟩ := hy
    rw [holdsLk_readKilled]
    cases b with
    | false => exact hm
    | true =>
      show f (x false) m = true
      rw [← hok.2 m]
      exact hm
  | kill pid j x | killOne pid j x | allocproc p i x | allocOne p i x | fork p np x
  | setParent p np pid x | setRunnable np pid x | waitScan p i kids x | waitOne p i x
  | waitKilled p x =>
    obtain ⟨r, rfl⟩ := hy
    rw [hok.2] at hm
    cases hm
  | _ => exact hy.elim

theorem Control.exclusive (h : Control client.holds s) {x z : K} (hpc : s.code c = .client x)
    (hp : s.agent c = some p) (hqp : q ≠ p) (hq : Live s q) (hz : (s.thread q).Rest z) (l : ℕ)
    (hx : client.holds x l = true) : client.holds z l = false := by
  by_contra hne
  have hzl : client.holds z l = true := by simpa using hne
  have hlock : s.lock (.other l) = some c := by
    rw [h.lock, hpc]
    exact hx
  by_cases hon : ∃ d, s.agent d = some q
  · obtain ⟨d, hd⟩ := hon
    have hok := h.ok d
    rw [code_of_agent hd] at hok
    have hl := holdsLk_of_rest hok hz hzl
    rw [← code_of_agent hd, ← h.lock, hlock] at hl
    obtain rfl : c = d := Option.some.inj hl
    exact hqp (Option.some.inj (hd.symm.trans hp))
  · obtain ⟨hres, -⟩ := h.context q (fun d hd => hon ⟨d, hd⟩) hq.1 hq.2
    have hl := holdsLk_of_rest hres.2.2.2.2 hz hzl
    rw [hres.2.1] at hl
    cases hl

namespace Places

variable {A : Slot → K → σ → Prop}

theorem goto (h : Places client A s) (hth : t.thread = (s.goto c k).thread)
    (hdata : t.data = s.data) (hpc : s.code c = k') (hw : ∀ y, k.Waits y → k'.Waits y)
    (hk : ∀ y, k.Rest y → k'.GoesOn y) (hlive : ∀ p, Live t p → Live s p) :
    Places client A t := by
  constructor
  · intro p y hy
    rw [hth, thread_goto] at hy
    split_ifs at hy with hc
    · apply h.waits p y
      rw [← code_of_agent hc, hpc]
      exact hw y hy
    · exact h.waits p y hy
  · intro p y hp hy
    rw [hdata]
    apply h.rest p y (hlive p hp)
    rw [hth, thread_goto] at hy
    split_ifs at hy with hc
    · rw [← code_of_agent hc, hpc]
      rcases hy with hy | hy
      · exact hk y hy
      · exact Or.inr (hw y hy)
    · exact hy

theorem here (hc : Control client.holds s) (h : Places client A s) {x : K}
    (hpc : s.code c = .client x) (hq : s.agent c = some q) : A q x s.data := by
  have hst : (s.proc q).state = .running := by
    simpa [hpc, expects] using hc.state c q (proc_of_agent hq)
  apply h.rest q x
  · simp [Live, hst]
  · rw [← code_of_agent hq, hpc]
    exact Or.inl rfl

theorem call (hl : client.Local A) (hc : Control client.holds s) (h : Places client A s) {x : K}
    {a : Call K} (hth : t.thread = (s.goto c k).thread) (hdata : t.data = s.data)
    (hproc : t.proc = s.proc) (hpc : s.code c = .client x) (hq : s.agent c = some q)
    (ha : client.calls q x s.data a) (hw : ∀ y, k.Waits y → a.Returns y ∧ client.Entry y)
    (hk : ∀ y, k.Rest y → a.Returns y) : Places client A t := by
  have hlive : ∀ p, Live t p → Live s p := by
    intro p
    unfold Live
    rw [hproc]
    exact id
  constructor
  · intro p y hy
    rw [hth, thread_goto] at hy
    split_ifs at hy with hcp
    · exact (hw y hy).2
    · exact h.waits p y hy
  · intro p y hp hy
    rw [hdata]
    rw [hth, thread_goto] at hy
    split_ifs at hy with hcp
    · obtain rfl : q = p := Option.some.inj (hq.symm.trans hcp)
      apply hl.calls (h.here hc hpc hq) ha
      rcases hy with hy | hy
      · exact hk y hy
      · exact (hw y hy).1
    · exact h.rest p y (hlive p hp) hy

theorem live_of_ne (q : Slot) (hne : ∀ p, p ≠ q → (t.proc p).state = (s.proc p).state)
    (hq : Live t q → Live s q) (p : Slot) (hp : Live t p) : Live s p := by
  by_cases hpq : p = q
  · rw [hpq] at hp ⊢
    exact hq hp
  · unfold Live at hp ⊢
    rwa [hne p hpq] at hp

theorem birth (hl : client.Local A) (h : Places client A s) {i : Slot} :
    Places client A (s.birth client.start i) := by
  constructor
  · intro p y hy
    by_cases hpi : p = i
    · subst hpi
      rw [show (s.birth client.start p).thread p = .release p (.client client.start) by
        simp [Kernel.birth]] at hy
      exact hy.elim
    · rw [show (s.birth client.start i).thread p = s.thread p by simp [Kernel.birth, hpi]] at hy
      exact h.waits p y hy
  · intro p y hp hy
    by_cases hpi : p = i
    · subst hpi
      rw [show (s.birth client.start p).thread p = .release p (.client client.start) by
        simp [Kernel.birth]] at hy
      rcases hy with hy | hy
      · rw [show y = client.start from hy]
        exact hl.start p _
      · exact hy.elim
    · rw [show (s.birth client.start i).thread p = s.thread p by simp [Kernel.birth, hpi]] at hy
      refine h.rest p y ?_ hy
      unfold Live at hp ⊢
      simpa [Kernel.birth, hpi] using hp

/-- A step keeps the assertions at which the processes go on with the code of the client. -/
theorem step (hl : client.Local A) (hc : Control client.holds s) (hf : Forks s)
    (h : Places client A s) (hst : Step client s t) : Places client A t := by
  cases hst with
  | acquireLk c l k hpc hfree =>
    have hok := hc.ok c
    rw [hpc, Ok] at hok
    cases l with
    | wait =>
      exact h.goto rfl (by simp [enterLock]) hpc (fun _ hy => hy) (fun _ hy => Or.inl hy)
        (by simp [Live])
    | other n =>
      obtain ⟨x, rfl⟩ := hok.2.2.2.1 (by simp)
      exact h.goto (k := .client x) rfl (by simp [enterLock]) hpc (fun _ hy => hy.elim)
        (fun _ hy => Or.inr hy) (by simp [Live])
  | pick c i hpc hr =>
    refine ⟨h.waits, fun p y hp hy => h.rest p y ?_ hy⟩
    unfold Live at hp ⊢
    by_cases hpi : p = i
    · rw [hpi, hr]
      exact ⟨(by simp), (by simp)⟩
    · simpa [hpi] using hp
  | switchTo c i hpc =>
    obtain ⟨-, -, -, -, hctx⟩ := hc.thread_of_switchTo hpc
    rw [hctx, Function.update_eq_self]
    exact ⟨h.waits, h.rest⟩
  | back c i hpc => exact ⟨h.waits, h.rest⟩
  | swtch c q k hpc =>
    have hok := hc.ok c
    rw [hpc, Ok] at hok
    exact h.goto (c := c) (k := k) (by simp [Kernel.goto, hok.1]) rfl hpc (fun _ hy => hy)
      (fun _ hy => Or.inl hy) (live_of_ne q (by simp +contextual) (by simp [Live]))
  | preempt c q hp hl hl' =>
    exact h.goto rfl (by simp) (code_of_agent hp) (fun _ hy => hy) (fun _ hy => Or.inl hy)
      (by simp [Live])
  | readKilled c q x hpc =>
    exact h.goto rfl (by simp) hpc (fun _ hy => hy) (fun _ hy => Or.inl ⟨_, hy⟩) (by simp [Live])
  | allocOne c q i x hpc hs =>
    have hoff := hc.off_cpu (c := c) (q := i) (by simp [hpc, expects]) (by simp [hpc, Pc.holds])
      (by rw [hs]; decide)
    have hpc' : (s.birth client.start i).code c = .allocOne q i x := by
      rw [Control.code_birth _ hoff, hpc]
    exact (h.birth hl).goto (c := c) (k := .fork q i x) rfl (by simp) hpc' (fun _ hy => hy)
      (fun _ hy => Or.inl hy) (by simp [Live])
  | yielding c q k hpc =>
    have hok := hc.ok c
    rw [hpc, Ok] at hok
    have hst : (s.proc q).state = .running := by
      simpa [hpc, expects] using hc.state c q (proc_of_agent hok.1)
    exact h.goto rfl (by simp) hpc (by exact fun _ hy => hy) (by exact fun _ hy => Or.inl hy)
      (live_of_ne q (by simp +contextual) (by simp [Live, hst]))
  | sleeping c chan q k hpc =>
    have hok := hc.ok c
    rw [hpc, Ok] at hok
    have hst : (s.proc q).state = .running := by
      simpa [hpc, expects] using hc.state c q (proc_of_agent hok.1)
    exact h.goto rfl (by simp) hpc (by exact fun _ hy => hy) (by exact fun _ hy => Or.inl hy)
      (live_of_ne q (by simp +contextual) (by simp [Live, hst]))
  | wakeOne c chan j k hpc hs hchan =>
    exact h.goto rfl (by simp [rouse]) hpc (by exact fun _ hy => hy) (by exact fun _ hy => Or.inl hy)
      (live_of_ne j (by simp +contextual [rouse]) (by simp [Live, hs]))
  | killSleeping c pid j x hpc hp hs =>
    exact h.goto rfl (by simp [rouse]) hpc (by exact fun _ hy => hy) (by exact fun _ hy => Or.inl ⟨_, hy⟩)
      (live_of_ne j (by simp +contextual [rouse]) (by simp [Live, hs]))
  | forkFail c q np x hpc =>
    exact h.goto rfl (by simp) hpc (by exact fun _ hy => hy) (by exact fun _ hy => Or.inl ⟨_, hy⟩)
      (live_of_ne np (by simp +contextual) (by simp [Live, Process.free]))
  | setRunnable c np pid x hpc =>
    have hok := hc.ok c
    rw [hpc, Ok] at hok
    have hs := hf.of_code hpc rfl hok.1
    exact h.goto rfl (by simp) hpc (by exact fun _ hy => hy) (by exact fun _ hy => Or.inl ⟨_, hy⟩)
      (live_of_ne np (by simp +contextual) (by simp [Live, hs]))
  | zombie c q status hpc =>
    exact h.goto rfl (by simp) hpc (by exact fun _ hy => hy) (by exact fun _ hy => Or.inl hy)
      (live_of_ne q (by simp +contextual) (by simp [Live]))
  | waitFree c q i x hpc hs =>
    exact h.goto rfl (by simp) hpc (by exact fun _ hy => hy) (by exact fun _ hy => Or.inl ⟨_, hy⟩)
      (live_of_ne i (by simp +contextual) (by simp [Live, Process.free]))
  | tidy c q k hpc =>
    exact h.goto rfl (by simp) hpc (by exact fun _ hy => hy) (by exact fun _ hy => Or.inl hy)
      (live_of_ne q (by simp +contextual) (by simp [Live]))
  | killOne c pid j x hpc hp hs =>
    exact h.goto rfl (by simp) hpc (by exact fun _ hy => hy) (by exact fun _ hy => Or.inl ⟨_, hy⟩)
      (live_of_ne j (by simp +contextual) (by simp [Live]))
  | setKilled c q x hpc =>
    exact h.goto rfl (by simp) hpc (by exact fun _ hy => hy) (by exact fun _ hy => Or.inl hy)
      (live_of_ne q (by simp +contextual) (by simp [Live]))
  | setParent c q np pid x hpc =>
    exact h.goto rfl (by simp) hpc (by exact fun _ hy => hy) (by exact fun _ hy => Or.inl hy)
      (live_of_ne np (by simp +contextual) (by simp [Live]))
  | reparent c q status i hpc hp =>
    exact h.goto rfl (by simp [enterWakeup]) hpc (by exact fun _ hy => hy) (by exact fun _ hy => Or.inl hy)
      (live_of_ne i (by simp +contextual [enterWakeup]) (by simp [Live, enterWakeup]))
  | killEnd c pid j x hpc hj =>
    exact h.goto rfl (by simp) hpc (fun _ hy => hy) (fun _ hy => Or.inl ⟨_, hy⟩) (by simp [Live])
  | allocEnd c q i x hpc hj =>
    exact h.goto rfl (by simp) hpc (fun _ hy => hy) (fun _ hy => Or.inl ⟨_, hy⟩) (by simp [Live])
  | waitNone c q i x hpc hj =>
    exact h.goto rfl (by simp) hpc (fun _ hy => hy) (fun _ hy => Or.inl ⟨_, hy⟩) (by simp [Live])
  | waitCopyout c q i x hpc hs =>
    exact h.goto rfl (by simp) hpc (fun _ hy => hy) (fun _ hy => Or.inl ⟨_, hy⟩) (by simp [Live])
  | waitKilled c q x hpc hs =>
    exact h.goto rfl (by simp) hpc (fun _ hy => hy) (fun _ hy => Or.inl ⟨_, hy⟩) (by simp [Live])
  | callAcquire c p x l k hpc hp ha =>
    exact h.call hl hc rfl (by simp) (by simp) hpc hp ha
      (fun y hy => ⟨hy, p, x, s.data, l, Or.inl (by rwa [show y = k from hy])⟩) (fun _ hy => hy.elim)
  | callRelease c p x l k hpc hp ha =>
    exact h.call hl hc rfl (by simp) (by simp) hpc hp ha (fun _ hy => hy.elim) (fun _ hy => hy)
  | callSleep c p x chan l k hpc hp ha =>
    exact h.call hl hc rfl (by simp [enterSleep]) (by simp) hpc hp ha
      (fun y hy => ⟨hy, p, x, s.data, l, Or.inr ⟨chan, by rwa [show y = k from hy]⟩⟩)
      (fun _ hy => hy.elim)
  | callWakeup c p x chan k hpc hp ha =>
    exact h.call hl hc rfl (by simp [enterWakeup]) (by simp) hpc hp ha (fun _ hy => hy.elim)
      (fun _ hy => hy)
  | callKilled c p x k hpc hp ha =>
    exact h.call hl hc rfl (by simp) (by simp) hpc hp ha (fun _ hy => hy.elim) (fun _ hy => hy)
  | callSetkilled c p x k hpc hp ha =>
    exact h.call hl hc rfl (by simp) (by simp) hpc hp ha (fun _ hy => hy.elim) (fun _ hy => hy)
  | callKill c p x pid k hpc hp ha =>
    exact h.call hl hc (k := .kill pid 0 k) rfl (by simp) (by simp) hpc hp ha (fun _ hy => hy.elim)
      (fun _ hy => hy)
  | callFork c p x k hpc hp ha =>
    exact h.call hl hc rfl (by simp) (by simp) hpc hp ha (fun _ hy => hy.elim) (fun _ hy => hy)
  | callExit c p x status hpc hp hi ha =>
    exact h.call hl hc rfl (by simp) (by simp) hpc hp ha (fun _ hy => hy.elim) (fun _ hy => hy)
  | callWait c p x k hpc hp ha =>
    exact h.call hl hc rfl (by simp) (by simp) hpc hp ha (fun _ hy => hy.elim) (fun _ hy => hy)
  | move c q x y e hpc hq hm =>
    have hx := h.here hc hpc hq
    have hlive : ∀ p, Live ({ s.goto c (.client y) with data := e } : Kernel N σ K) p → Live s p := by
      simp [Live]
    constructor
    · intro p z hz
      have hz' : ((s.goto c (.client y)).thread p).Waits z := hz
      rw [thread_goto] at hz'
      split_ifs at hz' with hcp
      · exact hz'.elim
      · exact h.waits p z hz'
    · intro p z hp hz
      have hz' : ((s.goto c (.client y)).thread p).GoesOn z := hz
      rw [thread_goto] at hz'
      split_ifs at hz' with hcp
      · obtain rfl : q = p := Option.some.inj (hq.symm.trans hcp)
        rcases hz' with hz' | hz'
        · obtain rfl : z = y := hz'
          exact hl.moves hx hm
        · exact hz'.elim
      · have hpq : p ≠ q := by
          rintro rfl
          exact hcp hq
        refine hl.stable hx hm hpq ?_ (h.rest p z (hlive p hp) hz')
        rcases hz' with hz' | hz'
        · exact Or.inr (hc.exclusive hpc hq hpq (hlive p hp) hz')
        · exact Or.inl (h.waits p z hz')
  | device e hd => exact ⟨h.waits, fun p y hp hy => hl.device hd (h.rest p y hp hy)⟩
  | _ =>
    exact h.goto rfl (by simp [enterSleep, enterWakeup]) ‹_› (by exact fun _ hy => hy)
      (by exact fun _ hy => Or.inl hy) (by simp [Live])

end Places

/-- What a client establishes locally holds in every reachable state, of every process at every place
where it can go on. -/
theorem Client.Local.reachable {A : Slot → K → σ → Prop} (hl : client.Local A)
    (h : (machine N client init).Reachable s) : Places client A s := by
  apply h.invariant (I := Places client A)
  · intro s hs
    have hne : ∀ p, p ≠ initproc → s.thread p = .dead := hs.idle
    constructor
    · intro p y hy
      by_cases hp : p = initproc
      · rw [hp, hs.thread] at hy
        exact hy.elim
      · rw [hne p hp] at hy
        exact hy.elim
    · intro p y _ hy
      by_cases hp : p = initproc
      · rw [hp, hs.thread] at hy
        rcases hy with hy | hy
        · rw [show y = client.start from hy]
          exact hl.start p _
        · exact hy.elim
      · rw [hne p hp] at hy
        rcases hy with hy | hy
        · exact hy.elim
        · exact hy.elim
  · intro s t hr hs hst
    obtain ⟨hc, hf⟩ := reachable_control hr
    exact hs.step hl hc hf hst

end Xv6.Sched
