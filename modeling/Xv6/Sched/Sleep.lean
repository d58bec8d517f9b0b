import Xv6.Sched.Exec

/-! `sleep` and `wakeup`. A process that has called `sleep` with a lock stays on its way to sleeping,
or asleep, until it is made runnable, and a call of `wakeup` by a process that has acquired the lock
since does not return before that. -/
namespace Xv6.Sched

open Proc (ProcState)
open Pc Kernel

variable {N : ℕ} {σ K : Type} {client : Client σ K} {init : σ → Prop} {s t : Kernel N σ K}
  {c : Fin N} {p q : Slot} {f : K → ℕ → Bool} {k k' : Pc K} {chan : Chan} {lk : Lock}

/-- Process `p` is on its way to sleeping. -/
def Napping (s : Kernel N σ K) (p : Slot) (chan : Chan) (lk : Lock) : Prop :=
  ∃ c, s.agent c = some p ∧ (s.thread p).naps = some (chan, lk)

def Asleep (s : Kernel N σ K) (p : Slot) (chan : Chan) : Prop :=
  (s.proc p).state = .sleeping ∧ (s.proc p).chan = some chan

/-- Process `p` is on its way to sleeping, or asleep. -/
def Blocked (s : Kernel N σ K) (p : Slot) (chan : Chan) (lk : Lock) : Prop :=
  Napping s p chan lk ∨ Asleep s p chan

/-- The channel of a call of `wakeup` in progress, and the entries of `proc[]` it has passed. -/
def Pc.waking : Pc K → Option (Chan × ℕ)
  | acquire _ k | release _ k | acquireLk _ k | releaseLk _ k | yielding _ k | sched _ k | swtch _ k
  | sleeping _ _ k | tidy _ k => k.waking
  | wakeup chan j _ => some (chan, j)
  | wakeOne chan j _ => some (chan, j)
  | _ => none

theorem Pc.AfterWakeup.waking {me : Option Slot} (h : AfterWakeup f me k) : k.waking = none := by
  cases h <;> rfl

/-- The calls of `sleep` whose processes have not been made runnable, and what the calls of `wakeup`
in progress still owe them. -/
structure Sleepers (s : Kernel N σ K) : Prop where
  blocked : ∀ p chan lk, s.hist.asleep p = some (chan, lk) →
    s.hist.roused p (s.hist.calls p) = false → Blocked s p chan lk
  entering : ∀ c p chan lk q, s.hist.asleep p = some (chan, lk) →
    s.hist.roused p (s.hist.calls p) = false → s.agent c = some p → s.lock lk = some c →
    s.hist.lockers p q = false
  waking : ∀ q chan j, (s.thread q).waking = some (chan, j) → ∀ p n, s.hist.owes q p = some n →
    s.hist.roused p n = true ∨ n = s.hist.calls p ∧ j ≤ p ∧
      (s.hist.asleep p).map Prod.fst = some chan ∧ s.hist.lockers p q = true
  done : ∀ p n, 0 < n → n ≤ s.hist.calls p → (n = s.hist.calls p → s.hist.asleep p = none) →
    s.hist.roused p n = true

theorem not_blocked (hp : s.agent c = some p) (hn : (s.code c).naps = none)
    (hst : (s.proc p).state ≠ .sleeping) : ¬Blocked s p chan lk := by
  rintro (⟨d, hd, hd'⟩ | ⟨hs, -⟩)
  · rw [← code_of_agent hp, hn] at hd'
    cases hd'
  · exact hst hs

/-- Nobody else has the lock of a process that is on its way to sleeping, unless it holds the lock of
the condition. -/
theorem Control.slept_of_locked (h : Control f s) (hc : (s.code c).holds p = true)
    (hn : (s.code c).naps = none) (hb : Blocked s p chan lk)
    (hlk : ∀ d, s.agent d = some p → s.lock lk ≠ some d) :
    (s.proc p).state = .sleeping ∧ (s.proc p).chan = some chan := by
  rcases hb with ⟨d, hd, hd'⟩ | hs
  · have hok := h.ok d
    rw [hd, code_of_agent hd] at hok
    rcases holds_of_naps hok hd' with hl | hl
    · rw [← code_of_agent hd, ← h.lock] at hl
      exact absurd hl (hlk d hd)
    · rw [← code_of_agent hd] at hl
      have hl₁ := (h.plock c p).mpr hc
      have hl₂ := (h.plock d p).mpr hl
      obtain rfl : c = d := Option.some.inj (hl₁.symm.trans hl₂)
      rw [← code_of_agent hd, hn] at hd'
      cases hd'
  · exact hs

theorem Blocked.goto (hb : Blocked s p chan lk) (hth : t.thread = (s.goto c k).thread)
    (hcpu : t.cpu = (s.goto c k).cpu) (hpc : s.code c = k') (hk : k ≠ .away)
    (hn : k.naps = k'.naps)
    (hproc : (s.proc p).state = .sleeping →
      (t.proc p).state = .sleeping ∧ (t.proc p).chan = (s.proc p).chan) : Blocked t p chan lk := by
  have hagent : ∀ d, t.agent d = s.agent d := by
    intro d
    rw [agent_congr hcpu, agent_goto hk]
  rcases hb with ⟨d, hd, hd'⟩ | ⟨hs, hch⟩
  · refine Or.inl ⟨d, (hagent d).trans hd, ?_⟩
    rw [hth, thread_goto]
    split_ifs with hc
    · rw [hn, ← hpc, code_of_agent hc, hd']
    · exact hd'
  · obtain ⟨hs', hch'⟩ := hproc hs
    exact Or.inr ⟨hs', hch'.trans hch⟩

namespace Sleepers

theorem frame (h : Sleepers s)
    (hb : ∀ p chan lk, s.hist.asleep p = some (chan, lk) → Blocked s p chan lk → Blocked t p chan lk)
    (he : ∀ c p lk, t.agent c = some p → t.lock lk = some c → s.agent c = some p ∧ s.lock lk = some c)
    (hw : ∀ q chan j, (t.thread q).waking = some (chan, j) → (s.thread q).waking = some (chan, j))
    (hhist : t.hist.asleep = s.hist.asleep ∧ t.hist.calls = s.hist.calls ∧
      t.hist.roused = s.hist.roused ∧ t.hist.lockers = s.hist.lockers ∧
      t.hist.owes = s.hist.owes) : Sleepers t := by
  obtain ⟨h1, h2, h3, h4, h5⟩ := hhist
  constructor
  · intro p chan lk hp hr
    rw [h1] at hp
    rw [h2, h3] at hr
    exact hb p chan lk hp (h.blocked p chan lk hp hr)
  · intro c p chan lk q hp hr hc hl
    rw [h1] at hp
    rw [h2, h3] at hr
    rw [h4]
    obtain ⟨hc', hl'⟩ := he c p lk hc hl
    exact h.entering c p chan lk q hp hr hc' hl'
  · intro q chan j hq p n hn
    rw [h5] at hn
    rw [h1, h2, h3, h4]
    exact h.waking q chan j (hw q chan j hq) p n hn
  · rw [h1, h2, h3]
    exact h.done

/-- A process that takes a step of its own outside the way to sleeping has been made runnable in
its last call of `sleep`, if that is still in progress. -/
theorem settled (h : Sleepers s) (hp : s.agent c = some p) (hn : (s.code c).naps = none)
    (hst : (s.proc p).state ≠ .sleeping) (ha : (s.hist.asleep p).isSome) :
    s.hist.roused p (s.hist.calls p) = true := by
  obtain ⟨⟨chan, lk⟩, ha⟩ := Option.isSome_iff_exists.mp ha
  by_contra hr
  exact not_blocked hp hn hst (h.blocked p chan lk ha (by simpa using hr))

theorem quiet (h : Sleepers s) (hth : t.thread = (s.goto c k).thread)
    (hcpu : t.cpu = (s.goto c k).cpu) (hpc : s.code c = k') (hk : k ≠ .away)
    (hn : k.naps = k'.naps) (hw : k.waking = k'.waking ∨ k.waking = none)
    (hproc : ∀ p, (s.proc p).state = .sleeping →
      (t.proc p).state = .sleeping ∧ (t.proc p).chan = (s.proc p).chan)
    (hlock : ∀ l d, t.lock l = some d → s.lock l = some d)
    (hhist : t.hist.asleep = s.hist.asleep ∧ t.hist.calls = s.hist.calls ∧
      t.hist.roused = s.hist.roused ∧ t.hist.lockers = s.hist.lockers ∧
      t.hist.owes = s.hist.owes) : Sleepers t := by
  refine h.frame (fun p chan lk _ hb => hb.goto hth hcpu hpc hk hn (hproc p)) ?_ ?_ hhist
  · intro d p lk hd hl
    refine ⟨?_, hlock lk d hl⟩
    rw [← hd, agent_congr hcpu, agent_goto hk]
  · intro q chan j hq
    rw [hth, thread_goto] at hq
    split_ifs at hq with hc
    · rcases hw with hw | hw
      · rw [← code_of_agent hc, hpc, ← hw, hq]
      · rw [hw] at hq
        cases hq
    · exact hq

theorem waking_goto (hth : t.thread = (s.goto c k).thread) (hpc : s.code c = k')
    (hw : k.waking = k'.waking ∨ k.waking = none) {j : ℕ}
    (hq : (t.thread q).waking = some (chan, j)) : (s.thread q).waking = some (chan, j) := by
  rw [hth, thread_goto] at hq
  split_ifs at hq with hc
  · rcases hw with hw | hw
    · rw [← code_of_agent hc, hpc, ← hw, hq]
    · rw [hw] at hq
      cases hq
  · exact hq

theorem acquireLk (hc : Control f s) (h : Sleepers s) {l : Lock} (hpc : s.code c = .acquireLk l k)
    (hl : s.lock l = none) : Sleepers ((s.goto c k).enterLock c l) := by
  have hok := hc.ok c
  rw [hpc, Ok] at hok
  have hk := hok.2.2.2.2.ne_away
  have hagent : ∀ d, ((s.goto c k).enterLock c l).agent d = s.agent d := agent_goto hk
  constructor
  · intro p chan lk hp hr
    simp only [enterLock, hist_goto] at hp hr
    exact (h.blocked p chan lk hp hr).goto rfl rfl hpc hk hok.2.2.1 (by simp)
  · intro d p chan lk q hp hr hd hlk
    simp only [enterLock, hist_goto, agent_goto hk] at hp hr hlk ⊢
    rw [hagent] at hd
    by_cases hll : lk = l
    · subst hll
      obtain rfl : c = d := by simpa using hlk
      have hrun := hc.running_of_unlocked hd (by simp [hpc, holds, hok.2.1])
      have := h.settled hd (by rw [hpc]; rfl) (by rw [hrun]; decide) (by rw [hp]; rfl)
      rw [hr] at this
      cases this
    · rw [hp]
      simp only [Option.map_some, Option.some.injEq, hll, false_and, if_false]
      rw [Function.update_of_ne hll, lock_goto] at hlk
      exact h.entering d p chan lk q hp hr hd hlk
  · intro q chan j hq p n hn
    simp only [enterLock, hist_goto] at hn ⊢
    have hq' := waking_goto (t := (s.goto c k).enterLock c l) rfl hpc (Or.inl rfl) hq
    refine (h.waking q chan j hq' p n hn).imp id ?_
    rintro ⟨h1, h2, h3, h4⟩
    refine ⟨h1, h2, h3, ?_⟩
    split_ifs
    · rfl
    · exact h4
  · exact fun p n => by simpa [enterLock] using h.done p n

theorem enterSleep (h : Sleepers s) (hp : s.agent c = some p)
    (hpc : s.code c = k') (hk : k ≠ .away) (hn : k'.naps = none)
    (hrun : (s.proc p).state = .running) (hk' : k.naps = some (chan, lk)) (hw : k.waking = none) :
    Sleepers ((s.goto c k).enterSleep p chan lk) := by
  have hset : (s.hist.asleep p).isSome → s.hist.roused p (s.hist.calls p) = true :=
    h.settled hp (by rw [hpc, hn]) (by rw [hrun]; decide)
  have hagent : ∀ d, ((s.goto c k).enterSleep p chan lk).agent d = s.agent d := agent_goto hk
  constructor
  · intro p' chan' lk' hp' hr
    by_cases hpp : p' = p
    · subst hpp
      simp only [Kernel.enterSleep, Function.update_self, Option.some.injEq, Prod.mk.injEq] at hp'
      obtain ⟨rfl, rfl⟩ := hp'
      refine Or.inl ⟨c, (hagent c).trans hp, ?_⟩
      show ((s.goto c k).thread p').naps = _
      rw [thread_goto, if_pos hp, hk']
    · simp only [Kernel.enterSleep, Function.update_of_ne hpp, hist_goto] at hp' hr
      rcases h.blocked p' chan' lk' hp' hr with ⟨d, hd, hd'⟩ | hs
      · refine Or.inl ⟨d, (hagent d).trans hd, ?_⟩
        show ((s.goto c k).thread p').naps = _
        rw [thread_goto, if_neg ?_, hd']
        rw [hp]
        exact fun he => hpp (Option.some.inj he).symm
      · exact Or.inr (by simpa [Asleep] using hs)
  · intro d p' chan' lk' q hp' hr hd hl
    rw [hagent] at hd
    by_cases hpp : p' = p
    · simp [Kernel.enterSleep, hpp]
    · simp only [Kernel.enterSleep, Function.update_of_ne hpp, hist_goto, lock_goto] at hp' hr hl ⊢
      exact h.entering d p' chan' lk' q hp' hr hd hl
  · intro q chan' j hq p' n hn'
    simp only [Kernel.enterSleep, hist_goto] at hn' ⊢
    have hq' := waking_goto (t := (s.goto c k).enterSleep p chan lk) rfl hpc (Or.inr hw) hq
    have := h.waking q chan' j hq' p' n hn'
    by_cases hpp : p' = p
    · subst hpp
      left
      rcases this with hr | ⟨rfl, -, ha, -⟩
      · exact hr
      · apply hset
        cases has : s.hist.asleep p' with
        | none => simp [has] at ha
        | some a => rfl
    · simpa [hpp] using this
  · intro p' n hn0 hle hne
    by_cases hpp : p' = p
    · subst hpp
      simp only [Kernel.enterSleep, hist_goto, Function.update_self] at hle hne ⊢
      have hlt : n ≠ s.hist.calls p' + 1 := fun he => by simpa using hne he
      by_cases hnc : n = s.hist.calls p'
      · subst hnc
        cases has : s.hist.asleep p' with
        | none => exact h.done p' _ hn0 le_rfl fun _ => has
        | some a => exact hset (by simp [has])
      · exact h.done p' n hn0 (by omega) fun he => absurd he hnc
    · simp only [Kernel.enterSleep, hist_goto, Function.update_of_ne hpp] at hle hne ⊢
      exact h.done p' n hn0 hle hne

theorem rouse (h : Sleepers s) {j : Slot} (hth : t.thread = (s.goto c k).thread)
    (hcpu : t.cpu = (s.goto c k).cpu) (hpc : s.code c = k') (hk : k ≠ .away)
    (hn : k.naps = k'.naps) (hlock : t.lock = s.lock)
    (hproc : ∀ p, p ≠ j → t.proc p = s.proc p)
    (hhist : t.hist.asleep = s.hist.asleep ∧ t.hist.calls = s.hist.calls ∧
      t.hist.lockers = s.hist.lockers ∧ t.hist.owes = s.hist.owes)
    (hroused : ∀ p n, t.hist.roused p n = true ↔
      s.hist.roused p n = true ∨ p = j ∧ n = s.hist.calls p)
    (hw : k.waking = none ∨
      ∃ chan, k'.waking = some (chan, j.val) ∧ k.waking = some (chan, j.val + 1)) :
    Sleepers t := by
  obtain ⟨h1, h2, h4, h5⟩ := hhist
  have hfalse : ∀ p, t.hist.roused p (t.hist.calls p) = false →
      s.hist.roused p (s.hist.calls p) = false ∧ p ≠ j := by
    intro p hr
    rw [h2, ← Bool.not_eq_true, hroused, not_or] at hr
    exact ⟨by simpa using hr.1, fun hj => hr.2 ⟨hj, rfl⟩⟩
  constructor
  · intro p chan lk hp hr
    rw [h1] at hp
    obtain ⟨hr, hpj⟩ := hfalse p hr
    exact (h.blocked p chan lk hp hr).goto hth hcpu hpc hk hn (by rw [hproc p hpj]; exact fun hs => ⟨hs, rfl⟩)
  · intro d p chan lk q hp hr hd hl
    rw [h1] at hp
    rw [agent_congr hcpu, agent_goto hk] at hd
    rw [hlock] at hl
    rw [h4]
    exact h.entering d p chan lk q hp (hfalse p hr).1 hd hl
  · intro q chan i hq p n hn'
    rw [h5] at hn'
    rw [h1, h2, h4, hroused]
    rw [hth, thread_goto] at hq
    split_ifs at hq with hc
    · rcases hw with hw | ⟨chan', hw', hw⟩
      · rw [hw] at hq
        cases hq
      · rw [hw] at hq
        simp only [Option.some.injEq, Prod.mk.injEq] at hq
        obtain ⟨rfl, rfl⟩ := hq
        rw [← hpc, code_of_agent hc] at hw'
        rcases h.waking q chan' j hw' p n hn' with hr | ⟨rfl, hj, ha, hlq⟩
        · exact Or.inl (Or.inl hr)
        · by_cases hpj : p = j
          · exact Or.inl (Or.inr ⟨hpj, rfl⟩)
          · refine Or.inr ⟨rfl, ?_, ha, hlq⟩
            have : (p : ℕ) ≠ j := fun he => hpj (Fin.ext he)
            omega
    · rcases h.waking q chan i hq p n hn' with hr | hrest
      · exact Or.inl (Or.inl hr)
      · exact Or.inr hrest
  · intro p n hn0 hle hne
    rw [h2] at hle
    rw [h1, h2] at hne
    rw [hroused]
    exact Or.inl (h.done p n hn0 hle hne)

theorem pass (h : Sleepers s) {j : Slot} (hpc : s.code c = k') (hk : k ≠ .away)
    (hn : k.naps = k'.naps) (hw' : k'.waking = some (chan, j.val))
    (hw : k.waking = some (chan, j.val + 1))
    (hj : ∀ q lk, s.agent c = some q → s.hist.asleep j = some (chan, lk) →
      s.hist.lockers j q = true → s.hist.roused j (s.hist.calls j) = true) :
    Sleepers (s.goto c k) := by
  constructor
  · intro p chan lk hp hr
    rw [hist_goto] at hp hr
    exact (h.blocked p chan lk hp hr).goto rfl rfl hpc hk hn (by simp)
  · intro d p chan lk q hp hr hd hl
    rw [hist_goto] at hp hr ⊢
    rw [agent_goto hk] at hd
    rw [lock_goto] at hl
    exact h.entering d p chan lk q hp hr hd hl
  · intro q chan' i hq p n hn'
    rw [hist_goto] at hn' ⊢
    rw [thread_goto] at hq
    split_ifs at hq with hc
    · rw [hw] at hq
      simp only [Option.some.injEq, Prod.mk.injEq] at hq
      obtain ⟨rfl, rfl⟩ := hq
      rw [← hpc, code_of_agent hc] at hw'
      rcases h.waking q chan j hw' p n hn' with hr | ⟨rfl, hjp, ha, hlq⟩
      · exact Or.inl hr
      · by_cases hpj : p = j
        · subst hpj
          left
          cases has : s.hist.asleep p with
          | none => simp [has] at ha
          | some a =>
            obtain ⟨chan', lk⟩ := a
            simp only [has, Option.map_some, Option.some.injEq] at ha
            subst ha
            exact hj q lk hc has hlq
        · refine Or.inr ⟨rfl, ?_, ha, hlq⟩
          have : (p : ℕ) ≠ j := fun he => hpj (Fin.ext he)
          omega
    · exact h.waking q chan' i hq p n hn'
  · rw [hist_goto]
    exact h.done

theorem enterWakeup (h : Sleepers s) (hp : s.agent c = some q)
    (hth : t.thread = (s.goto c k).thread) (hcpu : t.cpu = (s.goto c k).cpu) (hpc : s.code c = k')
    (hk : k ≠ .away) (hn : k.naps = k'.naps) (hw : k.waking = some (chan, 0))
    (hproc : ∀ p, (s.proc p).state = .sleeping →
      (t.proc p).state = .sleeping ∧ (t.proc p).chan = (s.proc p).chan)
    (hlock : t.lock = s.lock) (hhist : t.hist = (s.enterWakeup q chan).hist) : Sleepers t := by
  constructor
  · intro p chan lk hp hr
    rw [hhist] at hp hr
    exact (h.blocked p chan lk hp hr).goto hth hcpu hpc hk hn (hproc p)
  · intro d p chan lk q' hp hr hd hl
    rw [hhist] at hp hr ⊢
    rw [agent_congr hcpu, agent_goto hk] at hd
    rw [hlock] at hl
    exact h.entering d p chan lk q' hp hr hd hl
  · intro q' chan' i hq p n hn'
    rw [hhist] at hn' ⊢
    rw [hth, thread_goto] at hq
    simp only [Kernel.enterWakeup] at hn' ⊢
    by_cases hqq : q' = q
    · subst hqq
      rw [if_pos hp, hw] at hq
      simp only [Option.some.injEq, Prod.mk.injEq] at hq
      obtain ⟨rfl, rfl⟩ := hq
      rw [Function.update_self] at hn'
      split_ifs at hn' with hl
      exact Or.inr ⟨(Option.some.inj hn').symm, Nat.zero_le _, hl⟩
    · rw [if_neg ?_] at hq
      · rw [Function.update_of_ne hqq] at hn'
        exact h.waking q' chan' i hq p n hn'
      · rw [hp]
        exact fun he => hqq (Option.some.inj he).symm
  · rw [hhist]
    exact h.done

theorem swtch (hc : Control f s) (h : Sleepers s) (hpc : s.code c = .swtch p k) :
    Sleepers { s.setProc p { s.proc p with context := k } with
      cpu := Function.update s.cpu c { s.cpu c with pc := (s.cpu c).context }
      thread := Function.update s.thread p k } := by
  have hok := hc.ok c
  rw [hpc, Ok] at hok
  have hth : s.thread p = .swtch p k := by rw [← code_of_agent hok.1, hpc]
  rw [hc.back c p hok.1]
  have hagent : ∀ d q, ({ s.setProc p { s.proc p with context := k } with
      cpu := Function.update s.cpu c { s.cpu c with pc := .back p }
      thread := Function.update s.thread p k } : Kernel N σ K).agent d = some q ↔
        s.agent d = some q ∧ q ≠ p := by
    intro d q
    by_cases hd : d = c
    · subst hd
      simp only [agent, Function.update_self, reduceCtorEq, false_iff, not_and, not_not]
      intro hq
      exact (Option.some.inj (hok.1.symm.trans hq)).symm
    · have : s.agent d = some q → q ≠ p := by
        rintro hq rfl
        exact hd (hc.agent_unique hq hok.1)
      constructor
      · intro hq
        have hq' : s.agent d = some q := by simpa [agent, hd] using hq
        exact ⟨hq', this hq'⟩
      · rintro ⟨hq, -⟩
        simpa [agent, hd] using hq
  refine h.frame ?_ ?_ ?_ ⟨rfl, rfl, rfl, rfl, rfl⟩
  · rintro q chan lk - (⟨d, hd, hd'⟩ | hs)
    · have hqp : q ≠ p := by
        rintro rfl
        rw [hth] at hd'
        cases hd'
      exact Or.inl ⟨d, (hagent d q).mpr ⟨hd, hqp⟩, by simpa [hqp] using hd'⟩
    · right
      by_cases hqp : q = p
      · subst hqp
        simpa [Asleep] using hs
      · simpa [Asleep, hqp] using hs
  · intro d q lk hd hl
    exact ⟨((hagent d q).mp hd).1, hl⟩
  · intro q chan j hq
    by_cases hqp : q = p
    · subst hqp
      rw [hth]
      simp only [Function.update_self] at hq
      exact hq
    · simpa [hqp] using hq

theorem switchTo (hc : Control f s) (h : Sleepers s) {i : Slot} (hpc : s.code c = .switchTo i) :
    Sleepers { s with
      cpu := Function.update s.cpu c { s.cpu c with context := .back i, pc := .away }
      thread := Function.update s.thread i (s.proc i).context } := by
  obtain ⟨hproc, hnone, -, -, hctx⟩ := hc.thread_of_switchTo hpc
  rw [hctx, Function.update_eq_self]
  have hagent : ∀ d, d ≠ c → ({ s with
      cpu := Function.update s.cpu c { s.cpu c with context := .back i, pc := .away } } :
        Kernel N σ K).agent d = s.agent d := by
    intro d hd
    simp [agent, hd]
  refine h.frame ?_ ?_ (fun _ _ _ => id) ⟨rfl, rfl, rfl, rfl, rfl⟩
  · rintro q chan lk - (⟨d, hd, hd'⟩ | hs)
    · have hdc : d ≠ c := by
        rintro rfl
        rw [hnone] at hd
        cases hd
      exact Or.inl ⟨d, (hagent d hdc).trans hd, hd'⟩
    · exact Or.inr hs
  · intro d q lk hd hl
    have hdc : d ≠ c := by
      rintro rfl
      have := (hc.lock d lk).mp hl
      rw [hpc] at this
      cases this
    rw [hagent d hdc] at hd
    exact ⟨hd, hl⟩

theorem scheduler (h : Sleepers s) {r : Process K} {i : Slot} {x : Cpu K}
    (hc : s.agent c = none) (hx : x.pc ≠ .away)
    (hr : (s.proc i).state = .sleeping → r.state = .sleeping ∧ r.chan = (s.proc i).chan) :
    Sleepers { s.setProc i r with cpu := Function.update s.cpu c x } := by
  have hagent : ∀ d, ({ s.setProc i r with cpu := Function.update s.cpu c x } :
      Kernel N σ K).agent d = s.agent d := by
    intro d
    by_cases hd : d = c
    · subst hd
      rw [hc]
      apply agent_of_ne_away
      simpa using hx
    · simp [agent, hd]
  refine h.frame ?_ ?_ (fun _ _ _ => id) ⟨rfl, rfl, rfl, rfl, rfl⟩
  · rintro q chan lk - (⟨d, hd, hd'⟩ | ⟨hs, hch⟩)
    · exact Or.inl ⟨d, (hagent d).trans hd, hd'⟩
    · right
      by_cases hq : q = i
      · subst hq
        have := hr hs
        simpa [Asleep, hch] using this
      · simpa [Asleep, hq] using And.intro hs hch
  · intro d q lk hd hl
    rw [hagent] at hd
    exact ⟨hd, hl⟩

theorem sleeping (hc : Control f s) (h : Sleepers s) (hpc : s.code c = .sleeping chan p k) :
    Sleepers ((s.goto c (.sched p (.tidy p k))).setProc p
      { s.proc p with chan := some chan, state := .sleeping }) := by
  have hok := hc.ok c
  rw [hpc, Ok] at hok
  have hst := hc.state c p (proc_of_agent hok.1)
  rw [hpc] at hst
  have hrun : (s.proc p).state = .running := hst
  have hagent : ∀ d, ((s.goto c (.sched p (.tidy p k))).setProc p
      { s.proc p with chan := some chan, state := .sleeping }).agent d = s.agent d :=
    agent_goto (by simp)
  refine h.frame ?_ ?_ ?_ (by simp)
  · rintro q chan' lk - (⟨d, hd, hd'⟩ | ⟨hs, hch⟩)
    · by_cases hqp : q = p
      · subst hqp
        right
        rw [← code_of_agent hok.1, hpc] at hd'
        have hcc : chan = chan' := by
          obtain ⟨-, hk⟩ := hok
          cases hk with
          | client n l x _ => cases hd'; rfl
          | wait x _ => cases hd'; rfl
        simp [Asleep, hcc]
      · refine Or.inl ⟨d, (hagent d).trans hd, ?_⟩
        show ((s.goto c (.sched p (.tidy p k))).thread q).naps = _
        rw [thread_goto_of_ne, hd']
        rw [hok.1]
        exact fun he => hqp (Option.some.inj he).symm
    · have hqp : q ≠ p := by
        rintro rfl
        rw [hrun] at hs
        cases hs
      exact Or.inr (by simpa [Asleep, hqp] using And.intro hs hch)
  · intro d q lk hd hl
    rw [hagent] at hd
    exact ⟨hd, by simpa using hl⟩
  · intro q chan' j hq
    exact waking_goto (t := s.goto c (.sched p (.tidy p k))) rfl hpc (Or.inl rfl) hq

theorem tidy (hc : Control f s) (h : Sleepers s) (hpc : s.code c = .tidy p k) :
    Sleepers { (s.goto c (.release p k)).setProc p { s.proc p with chan := none } with
      hist := { s.hist with asleep := Function.update s.hist.asleep p none } } := by
  have hok := hc.ok c
  rw [hpc, Ok] at hok
  obtain ⟨hp, chan, hk⟩ := hok
  have hst := hc.state c p (proc_of_agent hp)
  rw [hpc] at hst
  have hrun : (s.proc p).state = .running := hst
  have hset := h.settled hp (by rw [hpc]; rfl) (by rw [hrun]; decide)
  have hth : ({ (s.goto c (.release p k)).setProc p { s.proc p with chan := none } with
      hist := { s.hist with asleep := Function.update s.hist.asleep p none } } :
        Kernel N σ K).thread = (s.goto c (.release p k)).thread := rfl
  constructor
  · intro q chan' lk hq hr
    have hqp : q ≠ p := by
      rintro rfl
      simp at hq
    simp only [Function.update_of_ne hqp] at hq
    refine (h.blocked q chan' lk hq hr).goto hth rfl hpc (by simp) ?_ (by simp [hqp])
    exact hk.ok.2.2.2.2
  · intro d q chan' lk q' hq hr hd hl
    have hqp : q ≠ p := by
      rintro rfl
      simp at hq
    simp only [Function.update_of_ne hqp] at hq
    have hd' : s.agent d = some q := by
      rw [← agent_goto (c := c) (k := .release p k) (by simp)]
      exact hd
    exact h.entering d q chan' lk q' hq hr hd' (by simpa using hl)
  · intro q chan' j hq q' n hn
    have hq' := waking_goto hth hpc (Or.inl rfl) hq
    rcases h.waking q chan' j hq' q' n hn with hr | ⟨rfl, hj, ha, hlq⟩
    · exact Or.inl hr
    · by_cases hqp : q' = p
      · subst hqp
        left
        apply hset
        cases has : s.hist.asleep q' with
        | none => simp [has] at ha
        | some a => rfl
      · exact Or.inr ⟨rfl, hj, by simpa [hqp] using ha, hlq⟩
  · intro q n hn0 hle hne
    by_cases hqp : q = p
    · subst hqp
      by_cases hnc : n = s.hist.calls q
      · subst hnc
        cases has : s.hist.asleep q with
        | none => exact h.done q _ hn0 le_rfl fun _ => has
        | some a => exact hset (by simp [has])
      · exact h.done q n hn0 hle fun he => absurd he hnc
    · simp only [Function.update_of_ne hqp] at hne
      exact h.done q n hn0 hle hne

theorem birth (h : Sleepers s) {start : K} {i : Slot}
    (hoff : ∀ d, (s.cpu d).proc ≠ some i) (hs : (s.proc i).state = .unused) :
    Sleepers (s.birth start i) := by
  refine h.frame ?_ (fun _ _ _ hd hl => ⟨hd, hl⟩) ?_ ⟨rfl, rfl, rfl, rfl, rfl⟩
  · rintro q chan lk - (⟨d, hd, hd'⟩ | ⟨hs', hch⟩)
    · have hqi : q ≠ i := by
        rintro rfl
        exact hoff d (proc_of_agent hd)
      exact Or.inl ⟨d, hd, by simpa [Kernel.birth, hqi] using hd'⟩
    · have hqi : q ≠ i := by
        rintro rfl
        rw [hs] at hs'
        cases hs'
      exact Or.inr (by simpa [Asleep, Kernel.birth, hqi] using And.intro hs' hch)
  · intro q chan j hq
    by_cases hqi : q = i
    · simp [Kernel.birth, hqi, Pc.waking] at hq
    · simpa [Kernel.birth, hqi] using hq

end Sleepers

end Xv6.Sched
