import Xv6.Log.Control

/-! No lost wakeup in the log: a process asleep in `begin_op` still has its reason to sleep, or is
still ahead in the scan of a running `wakeup`. -/
namespace Xv6.Log

open Lib

variable {N : ℕ} {allowed : State N → Fin N → ℕ → Prop} {s t : State N}

/-- Everyone bound to sleep has a reason, or is still ahead in the scan of a `wakeup`. -/
def Sleepers (s : State N) : Prop :=
  ∀ p, (s.pc p).asleep = true →
    s.log.mustWait = true ∨ ∃ q k, s.pc q = .wakeup k ∧ k ≤ p.val ∧ q ≠ p

theorem mustWait_mono {l l' : Log} (hc : l.committing = true → l'.committing = true)
    (hn : l.lh.length ≤ l'.lh.length) (ho : l.outstanding ≤ l'.outstanding)
    (h : l.mustWait = true) : l'.mustWait = true := by
  rw [mustWait_iff] at h ⊢
  rcases h with h | h
  · exact Or.inl (hc h)
  · simp only [maxOpBlocks_eq, logSize_eq] at h ⊢
    push_cast at h ⊢
    omega

/-- Steps that only strengthen the reason to sleep, and move one process to a position where it is
not asleep and from one where it is not in the scan of a `wakeup`. -/
theorem Sleepers.mono (h : Sleepers s) {p : Fin N} {c : Pc} (hpc : t.pc = (s.goto p c).pc)
    (hw : s.log.mustWait = true → t.log.mustWait = true)
    (hc : c.asleep = true → (s.pc p).asleep = true ∨ t.log.mustWait = true)
    (hk : ∀ k, s.pc p ≠ .wakeup k) : Sleepers t := by
  intro q hq
  have old : (s.pc q).asleep = true ∨ t.log.mustWait = true := by
    by_cases hqp : q = p
    · subst hqp
      exact hc (by simpa [hpc] using hq)
    · exact Or.inl (by simpa [hpc, hqp] using hq)
  rcases old with old | old
  · rcases h q old with h | ⟨r, k, hr, hk', hne⟩
    · exact Or.inl (hw h)
    · have hrp : r ≠ p := fun e => hk k (e ▸ hr)
      exact Or.inr ⟨r, k, by simpa [hpc, hrp] using hr, hk', hne⟩
  · exact Or.inl old

theorem Sleepers.of_mustWait (h : t.log.mustWait = true) : Sleepers t := fun _ _ => Or.inl h

theorem Sleepers.of_wakeup {p : Fin N} (h : t.pc p = .wakeup 0) : Sleepers t := by
  intro q hq
  refine Or.inr ⟨p, 0, h, Nat.zero_le _, ?_⟩
  rintro rfl
  rw [h] at hq
  cases hq

theorem Control.scanner (h : Control s) {p q : Fin N} {k j : ℕ} (hp : s.pc p = .wakeup k)
    (hq : s.pc q = .wakeup j) : q = p ∧ j = k := by
  have h1 := (h.owner p).mpr (by rw [hp]; rfl)
  have h2 := (h.owner q).mpr (by rw [hq]; rfl)
  obtain rfl : p = q := Option.some.inj (h1.symm.trans h2)
  exact ⟨rfl, Pc.wakeup.inj (hq.symm.trans hp)⟩

/-- No step leaves a process asleep in `begin_op` that nobody will wake. -/
theorem Sleepers.step (h : Sleepers s) (hs : Control s) (hst : Step allowed s t) : Sleepers t := by
  cases hst with
  | beginOp p hp => exact h.mono rfl id (by rintro ⟨⟩) fun k => by rw [hp]; simp
  | acquire p c hp hl =>
    have hc : c.asleep = false := by
      cases hpc : s.pc p <;> simp only [hpc, Pc.acquired, Option.some.injEq, reduceCtorEq] at hp <;>
        subst hp <;> rfl
    refine h.mono rfl id (by simp [hc]) fun k hk => ?_
    simp [hk, Pc.acquired] at hp
  | sleep p hp hw => exact h.mono rfl id (fun _ => Or.inr hw) fun k => by rw [hp]; simp
  | sleepRelease p hp =>
    exact h.mono rfl id (fun _ => Or.inl (by rw [hp]; rfl)) fun k => by rw [hp]; simp
  | sleepSwitch p hp =>
    exact h.mono rfl id (fun _ => Or.inl (by rw [hp]; rfl)) fun k => by rw [hp]; simp
  | enter p hp hw =>
    exact h.mono rfl (mustWait_mono id le_rfl (by simp)) (by rintro ⟨⟩) fun k => by rw [hp]; simp
  | callWrite p b hp ha => exact h.mono rfl id (by rintro ⟨⟩) fun k => by rw [hp]; simp
  | write p b l pin hp hw =>
    obtain ⟨-, -, rfl, -⟩ := logWrite_ok hw
    refine h.mono rfl (mustWait_mono id ?_ le_rfl) (by rintro ⟨⟩) fun k => by rw [hp]; simp
    dsimp only
    split <;> simp
  | writePanic p b msg hp hw => exact h
  | callEnd p hp => exact h.mono rfl id (by rintro ⟨⟩) fun k => by rw [hp]; simp
  | endLast p l hp he =>
    obtain ⟨-, -, rfl⟩ := endOp_ok he
    exact .of_mustWait (by simp [mustWait])
  | endMore p l hp he => exact .of_wakeup (p := p) (by simp)
  | endPanic p msg hp he => exact h
  | clear p hp =>
    have hcom := hs.flag.mpr ⟨p, by rw [hp]; rfl⟩
    exact .of_mustWait (by simp [mustWait, hcom])
  | clearWritten p hp => exact h.mono rfl id (by rintro ⟨⟩) fun k => by rw [hp]; simp
  | finish p hp => exact .of_wakeup (p := p) (by simp)
  | wakeOne p k hp hk =>
    intro q hq
    have hqp : q ≠ p := by
      rintro rfl
      simp [Pc.asleep] at hq
    have hqw : ((s.wake p k).pc q).asleep = true := by simpa [hqp] using hq
    rcases s.wake_pc p k q with he | ⟨-, he, -⟩
    · rw [he] at hqw
      rcases h q hqw with hw | ⟨r, j, hr, hj, hne⟩
      · exact Or.inl (by simpa using hw)
      · obtain ⟨rfl, rfl⟩ := hs.scanner hp hr
        refine Or.inr ⟨r, k.val + 1, by simp, ?_, hne⟩
        have hkq : k ≠ q := by
          rintro rfl
          -- the scan is at `q`, whose `p->lock` is free: it sleeps and is woken now
          have hsl : s.pc k = .sleeping := by
            cases hc : s.pc k <;> simp_all [Pc.asleep, Pc.ownLock]
          simp [State.wake, hsl, hne.symm] at he
        have : k.val ≠ q.val := fun e => hkq (Fin.ext e)
        omega
    · rw [he] at hqw
      cases hqw
  | wakeDone p hp =>
    intro q hq
    have hqp : q ≠ p := by
      rintro rfl
      simp [Pc.asleep] at hq
    rcases h q (by simpa [hqp] using hq) with hw | ⟨r, j, hr, hj, hne⟩
    · exact Or.inl hw
    · obtain ⟨rfl, rfl⟩ := hs.scanner hp hr
      omega
  | kill q hq => exact h.mono rfl id (by rintro ⟨⟩) fun k => by rw [hq]; simp

theorem Sleepers.reachable {size : ℤ} (h : (protocol N size allowed).Reachable s) : Sleepers s :=
  h.invariant (fun s (hs : Initial size s) p hp => by simp [hs.pc, Pc.asleep] at hp)
    fun s t hr hs (hst : _ ∧ Step allowed s t) => hs.step (.reachable hr) hst.2

end Xv6.Log
