import Xv6.Sched.Wakeup

/-! Where a process that sleeps comes from: a step puts a process on its way to sleeping only by a
call of `sleep`, and to sleep only from there. -/
namespace Xv6.Sched

open Proc (ProcState)
open Pc Kernel

variable {N : ℕ} {σ K : Type} {client : Client σ K} {init : σ → Prop} {s t : Kernel N σ K}
  {c : Fin N} {p q : Slot} {f : K → ℕ → Bool} {k k' : Pc K} {chan : Chan} {lk : Lock}

/-- Process `p` calls `sleep(chan, lk)`. -/
inductive Enters (client : Client σ K) (s : Kernel N σ K) (p : Slot) : Chan → Lock → Prop
  | call (c x n l k) (h : s.code c = .client x) (hp : s.agent c = some p)
      (hc : client.calls p x s.data (.sleep n l k)) : Enters client s p (.other n) (.other l)
  | wait (c x) (h : s.code c = .waitKilled p x) (hp : s.agent c = some p)
      (hk : (s.proc p).killed = false) : Enters client s p (.proc p) .wait

theorem Napping.of_goto (h : Napping t p chan lk) (hth : t.thread = (s.goto c k).thread)
    (hcpu : t.cpu = (s.goto c k).cpu) (hpc : s.code c = k') (hk : k ≠ .away)
    (hn : k.naps = k'.naps ∨ k.naps = none) : Napping s p chan lk := by
  obtain ⟨d, hd, hd'⟩ := h
  rw [agent_congr hcpu, agent_goto hk] at hd
  refine ⟨d, hd, ?_⟩
  rw [hth, thread_goto] at hd'
  split_ifs at hd' with hc
  · rcases hn with hn | hn
    · rw [← code_of_agent hc, hpc, ← hn, hd']
    · rw [hn] at hd'
      cases hd'
  · exact hd'

theorem Napping.of_enterSleep {chan' : Chan} {lk' : Lock}
    (h : Napping ((s.goto c k).enterSleep q chan' lk') p chan lk) (hq : s.agent c = some q)
    (hk : k ≠ .away) (hn : k.naps = some (chan', lk')) :
    Napping s p chan lk ∨ p = q ∧ chan = chan' ∧ lk = lk' := by
  obtain ⟨d, hd, hd'⟩ := h
  have hd₁ : (s.goto c k).agent d = some p := hd
  have hd₂ : ((s.goto c k).thread p).naps = some (chan, lk) := hd'
  rw [agent_goto hk] at hd₁
  rw [thread_goto] at hd₂
  split_ifs at hd₂ with hc
  · right
    rw [hn] at hd₂
    cases hd₂
    exact ⟨Option.some.inj (hc.symm.trans hq), rfl, rfl⟩
  · exact Or.inl ⟨d, hd₁, hd₂⟩

theorem Step.napping (hc : Control client.holds s) (hst : Step client s t)
    (h : Napping t p chan lk) :
    Napping s p chan lk ∨ Enters client s p chan lk ∧ t.data = s.data := by
  cases hst with
  | acquire c p k hpc hl =>
    have hok := hc.ok c
    rw [hpc, Ok] at hok
    exact Or.inl (h.of_goto rfl rfl hpc hok.2.2.2.2.ne_away (Or.inl rfl))
  | release c p k hpc hl =>
    have hok := hc.ok c
    rw [hpc, Ok] at hok
    exact Or.inl (h.of_goto rfl rfl hpc hok.2.2.ne_away (Or.inl rfl))
  | acquireLk c l k hpc hl =>
    have hok := hc.ok c
    rw [hpc, Ok] at hok
    exact Or.inl (h.of_goto rfl rfl hpc hok.2.2.2.2.ne_away (Or.inr hok.2.2.1))
  | releaseLk c l k hpc hl =>
    have hok := hc.ok c
    rw [hpc, Ok] at hok
    exact Or.inl (h.of_goto rfl rfl hpc hok.2.2.2.ne_away (Or.inl rfl))
  | pick c i hpc hr =>
    have hok := hc.ok c
    rw [hpc, Ok] at hok
    obtain ⟨d, hd, hd'⟩ := h
    have hdc : d ≠ c := by
      rintro rfl
      simp [agent] at hd
    exact Or.inl ⟨d, by simpa [agent, hdc] using hd, hd'⟩
  | switchTo c i hpc =>
    obtain ⟨-, hnone, -, hres, hctx⟩ := hc.thread_of_switchTo hpc
    rw [hctx, Function.update_eq_self] at h
    obtain ⟨d, hd, hd'⟩ := h
    by_cases hdc : d = c
    · subst hdc
      obtain ⟨hproc, -⟩ := hc.thread_of_switchTo hpc
      obtain rfl : i = p := by simpa [agent, hproc] using hd
      have hnaps : (s.thread i).naps = some (chan, lk) := hd'
      rw [hres.2.2.2.1] at hnaps
      cases hnaps
    · exact Or.inl ⟨d, by simpa [agent, hdc] using hd, hd'⟩
  | back c i hpc =>
    obtain ⟨d, hd, hd'⟩ := h
    have hdc : d ≠ c := by
      rintro rfl
      simp [agent] at hd
    exact Or.inl ⟨d, by simpa [agent, hdc] using hd, hd'⟩
  | swtch c q k hpc =>
    have hok := hc.ok c
    rw [hpc, Ok] at hok
    rw [hc.back c q hok.1] at h
    obtain ⟨d, hd, hd'⟩ := h
    have hdc : d ≠ c := by
      rintro rfl
      simp [agent] at hd
    have hd₁ : s.agent d = some p := by simpa [agent, hdc] using hd
    have hpq : p ≠ q := by
      rintro rfl
      exact hdc (hc.agent_unique hd₁ hok.1)
    exact Or.inl ⟨d, hd₁, by simpa [hpq] using hd'⟩
  | preempt c q hp hl hl' =>
    exact Or.inl (h.of_goto rfl rfl (code_of_agent hp) (by simp) (Or.inr rfl))
  | wakeupEnd c chan j k hpc hj =>
    have hok := hc.ok c
    rw [hpc, Ok] at hok
    exact Or.inl (h.of_goto rfl rfl hpc hok.ok.1.ne_away (Or.inr hok.ok.2.2.2.2))
  | tidy c q k hpc =>
    have hok := hc.ok c
    rw [hpc, Ok] at hok
    obtain ⟨-, chan', hk⟩ := hok
    exact Or.inl (h.of_goto rfl rfl hpc (by simp) (Or.inr hk.ok.2.2.2.2))
  | yielding c q k hpc =>
    exact Or.inl (h.of_goto rfl rfl hpc (by simp) (Or.inr rfl))
  | allocOne c q i x hpc hs =>
    have hoff := hc.off_cpu (c := c) (q := i) (by simp [hpc, expects]) (by simp [hpc, holds])
      (by rw [hs]; decide)
    obtain ⟨d, hd, hd'⟩ := h
    rw [agent_goto (k := .fork q i x) (by simp)] at hd
    have hpi : p ≠ i := by
      rintro rfl
      exact hoff d (proc_of_agent hd)
    rw [thread_goto] at hd'
    split_ifs at hd' with ha
    · cases hd'
    · exact Or.inl ⟨d, hd, by simpa [Kernel.birth, hpi] using hd'⟩
  | waitSleep c q x hpc hk =>
    have hok := hc.ok c
    rw [hpc, Ok] at hok
    refine (h.of_enterSleep hok.1 (by simp) rfl).imp id ?_
    rintro ⟨rfl, rfl, rfl⟩
    exact ⟨.wait c x hpc hok.1 hk, by simp [enterSleep]⟩
  | callSleep c q x n l k hpc hp hcall =>
    refine (h.of_enterSleep hp (by rintro ⟨⟩) rfl).imp id ?_
    rintro ⟨rfl, rfl, rfl⟩
    exact ⟨.call c x n l k hpc hp hcall, by simp [enterSleep]⟩
  | device d hd => exact Or.inl h
  | _ => exact Or.inl (h.of_goto rfl rfl ‹_› (by simp) (Or.inr (by rfl)))

theorem Asleep.of_setProc {r : Process K} (h : Asleep t p chan)
    (hproc : t.proc = ((s.goto c k).setProc q r).proc)
    (hr : r.state = .sleeping → (s.proc q).state = .sleeping ∧ r.chan = (s.proc q).chan) :
    Asleep s p chan := by
  unfold Asleep at h
  rw [hproc, proc_setProc, proc_goto] at h
  split_ifs at h with hpq
  · subst hpq
    obtain ⟨hs, hch⟩ := hr h.1
    exact ⟨hs, hch.symm.trans h.2⟩
  · exact h

theorem Step.asleep (hc : Control client.holds s) (hst : Step client s t) (h : Asleep t p chan) :
    Asleep s p chan ∨ ∃ lk, Napping s p chan lk := by
  cases hst with
  | pick c i hpc hr =>
    left
    unfold Asleep at h ⊢
    by_cases hpi : p = i
    · simp [hpi] at h
    · simpa [hpi] using h
  | switchTo c i hpc => exact Or.inl h
  | back c i hpc => exact Or.inl h
  | swtch c q k hpc =>
    left
    unfold Asleep at h ⊢
    by_cases hpq : p = q
    · subst hpq
      simpa using h
    · simpa [hpq] using h
  | yielding c q k hpc => exact Or.inl (h.of_setProc rfl (by simp))
  | sleeping c chan' q k hpc =>
    have hok := hc.ok c
    rw [hpc, Ok] at hok
    unfold Asleep at h ⊢
    by_cases hpq : p = q
    · subst hpq
      simp only [proc_setProc, if_true, true_and, Option.some.injEq] at h
      subst h
      right
      obtain ⟨hp, hk⟩ := hok
      cases hk with
      | client n l x _ => exact ⟨_, c, hp, by rw [← code_of_agent hp, hpc]; rfl⟩
      | wait x _ => exact ⟨_, c, hp, by rw [← code_of_agent hp, hpc]; rfl⟩
    · exact Or.inl (by simpa [hpq] using h)
  | tidy c q k hpc =>
    have hok := hc.ok c
    rw [hpc, Ok] at hok
    have hst := hc.state c q (proc_of_agent hok.1)
    rw [hpc] at hst
    refine Or.inl (h.of_setProc (k := .release q k) (q := q) rfl ?_)
    intro hs
    have hrun : (s.proc q).state = .running := hst
    rw [show (s.proc q).state = .sleeping from hs] at hrun
    cases hrun
  | wakeOne c chan' j k hpc hs hchan => exact Or.inl (h.of_setProc (q := j) rfl (by simp))
  | killSleeping c pid j x hpc hp hs =>
    left
    unfold Asleep at h ⊢
    by_cases hpj : p = j
    · simp [hpj] at h
    · simpa [hpj] using h
  | killOne c pid j x hpc hp hs => exact Or.inl (h.of_setProc rfl fun hs => ⟨hs, rfl⟩)
  | setKilled c q x hpc => exact Or.inl (h.of_setProc (q := q) rfl fun hs => ⟨hs, rfl⟩)
  | allocOne c q i x hpc hs =>
    left
    unfold Asleep at h ⊢
    by_cases hpi : p = i
    · simp [Kernel.birth, hpi] at h
    · simpa [Kernel.birth, hpi] using h
  | forkFail c q np x hpc => exact Or.inl (h.of_setProc rfl (by rintro ⟨⟩))
  | setParent c q np pid x hpc => exact Or.inl (h.of_setProc rfl fun hs => ⟨hs, rfl⟩)
  | setRunnable c np pid x hpc => exact Or.inl (h.of_setProc rfl (by simp))
  | reparent c q status i hpc hp =>
    exact Or.inl (h.of_setProc (q := i) rfl fun hs => ⟨hs, rfl⟩)
  | zombie c q status hpc => exact Or.inl (h.of_setProc (q := q) rfl (by simp))
  | waitFree c q i x hpc hs => exact Or.inl (h.of_setProc (q := i) rfl (by rintro ⟨⟩))
  | device d hd => exact Or.inl h
  | _ => exact Or.inl (by simpa [Asleep] using h)

theorem Step.blocked (hc : Control client.holds s) (hst : Step client s t)
    (h : Blocked t p chan lk) :
    (∃ lk', Blocked s p chan lk') ∨ Enters client s p chan lk ∧ t.data = s.data := by
  rcases h with h | h
  · exact (hst.napping hc h).imp (fun h => ⟨lk, Or.inl h⟩) id
  · left
    rcases hst.asleep hc h with h | ⟨lk', h⟩
    · exact ⟨lk, Or.inr h⟩
    · exact ⟨lk', Or.inl h⟩

end Xv6.Sched
