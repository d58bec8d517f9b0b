import Xv6.Log.Transaction

/-! A crash at any point of `commit` or of `recover_from_log` leaves a transaction either undone or
done. -/
namespace Xv6.Log

open Bio Lib

variable {G : Geometry} {m : Mem} {d before after : Disk}

/-- What is left to do in a state, with what it will lead to. -/
def CrashInvariant (G : Geometry) (s : CrashState) : Prop :=
  match s.phase with
  | .running => Running G s.before s.after s.mem ∧ s.mem.log.lh ⊆ s.txn.map Prod.fst
  | .commit p => p.Holds interp.semantics
      (Intact (Committing G s.before s.after (s.txn.map Prod.fst)) (Viewed G s.after))
      (fun _ t => Running G s.after s.after t ∧ t.log.lh = []) s.mem
  | .recover p => ∃ R, (R = s.before ∨ R = s.after) ∧
      p.Holds interp.semantics (Intact (fun d _ => Outcome G R d) fun _ => True)
        (fun _ t => Running G R R t ∧ t.log.lh = []) s.mem

theorem Running.write (h : Running G before after m) {b : ℕ} {c : Block} {l : Log} {pin : Bool}
    (hb : G.Home b) (h32 : b < 2 ^ 32) (hw : logWrite m.log b = .ok (l, pin)) :
    Running G before (Function.update after b c)
      ({ m with cache := Function.update m.cache b c }.logged b l pin) := by
  obtain ⟨hshort, hfits, rfl, rfl⟩ := logWrite_ok hw
  have hsize := h.size
  have hmem : ∀ x, x ∈ (if b ∈ m.log.lh then m.log.lh else m.log.lh ++ [b]) ↔
      x = b ∨ x ∈ m.log.lh := by
    intro x
    split_ifs with hin
    · constructor
      · exact Or.inr
      · rintro (rfl | hx)
        · exact hin
        · exact hx
    · simp [or_comm]
  have hlen : (if b ∈ m.log.lh then m.log.lh else m.log.lh ++ [b]).length ≤ m.log.lh.length + 1 := by
    split_ifs <;> simp
  constructor
  · exact h.held
  · exact h.size
  · simp only [Mem.logged]
    split_ifs with hin
    · exact h.nodup
    · rw [← List.concat_eq_append]
      exact h.nodup.concat hin
  · intro x
    simp only [Mem.logged]
    rw [hmem]
    by_cases hin : b ∈ m.log.lh
    · simp only [hin, not_true, decide_false, Bool.false_eq_true, if_false]
      rw [h.pins x]
      constructor
      · exact Or.inr
      · rintro (rfl | hx)
        · exact hin
        · exact hx
    · by_cases hx : x = b
      · simp [hin, hx]
      · simp [hin, hx, h.pins x]
  · intro x hx
    rcases (hmem x).mp hx with rfl | hx
    · exact hb
    · exact h.home x hx
  · intro x hx
    rcases (hmem x).mp hx with rfl | hx
    · exact h32
    · exact h.uint x hx
  · simp only [Mem.logged]
    omega
  · simp only [Mem.logged]
    omega
  · exact h.cleared
  · intro x hx
    simp only [Mem.logged] at hx
    rw [hmem, not_or] at hx
    simpa [Mem.logged, hx.1] using h.same x hx.2
  · exact h.before
  · intro x hx
    simp only [Mem.logged, Function.update_apply]
    split_ifs
    · rfl
    · exact h.after x hx

theorem Running.settled {R : Disk} (h : Running G R R m) : Running G m.disk m.disk m :=
  ⟨h.held, h.size, h.nodup, h.pins, h.home, h.uint, h.fits, h.short, h.cleared, h.same,
    fun _ _ => rfl, fun b hb => by rw [h.after b hb, h.before b hb]⟩

theorem Running.with_log (h : Running G before after m) (l : Log) (hsize : l.size = m.log.size)
    (hlh : l.lh = m.log.lh) : Running G before after { m with log := l } := by
  constructor
  · exact h.held
  · exact hsize.trans h.size
  · simpa [hlh] using h.nodup
  · simpa [hlh] using h.pins
  · simpa [hlh] using h.home
  · simpa [hlh] using h.uint
  · simpa [hlh] using h.fits
  · simpa [hlh] using h.short
  · exact h.cleared
  · simpa [hlh] using h.same
  · exact h.before
  · exact h.after

theorem Outcome.recover {R : Disk} (h : Outcome G R d) :
    (recoverFromLog G).Holds interp.semantics (Intact (fun d _ => Outcome G R d) fun _ => True)
      (fun _ t => Running G R R t ∧ t.log.lh = []) (.cold G.size d) :=
  (holds_recoverFromLog h).mono fun _ _ _ ht => ⟨ht.1, by rw [ht.2]⟩

theorem CrashInvariant.recoverable {s : CrashState} (h : CrashInvariant G s) :
    Recoverable G s.before s.after s.mem.disk := by
  unfold CrashInvariant at h
  split at h
  · exact (h.1.wroteLog h.2 0).recoverable
  · exact h.now.disk.recoverable
  · obtain ⟨R, rfl | rfl, h⟩ := h
    · exact Or.inl h.now.disk
    · exact Or.inr h.now.disk

/-- Every step, also a crash, keeps the disk at a boundary between transactions or recoverable to
one. -/
theorem CrashInvariant.step {s t : CrashState} (h : CrashInvariant G s) (hst : CrashStep G s t) :
    CrashInvariant G t := by
  have hrec := h.recoverable
  unfold CrashInvariant at h ⊢
  cases hst with
  | beginOp hp _ =>
    simp only [hp] at h ⊢
    exact ⟨h.1.with_log _ rfl rfl, h.2⟩
  | write b c l pin hp hb h32 hw =>
    simp only [hp] at h ⊢
    refine ⟨by simpa [CrashState.after, apply] using h.1.write (c := c) hb h32 hw, ?_⟩
    obtain ⟨-, -, rfl, -⟩ := logWrite_ok hw
    intro x hx
    simp only [Mem.logged] at hx
    split_ifs at hx
    · simp [h.2 hx]
    · rcases List.mem_append.mp hx with hx | hx
      · simpa using Or.inl (h.2 hx)
      · simpa using Or.inr (List.mem_singleton.mp hx)
  | endOp l hp he =>
    obtain ⟨-, -, hl⟩ := endOp_ok he
    simp only [hp] at h ⊢
    exact ⟨h.1.with_log l (by rw [hl]) (by rw [hl]), by rw [hl]; exact h.2⟩
  | endLast l hp he =>
    obtain ⟨-, -, hl⟩ := endOp_ok he
    simp only [hp] at h
    exact (holds_commit (h.1.with_log l (by rw [hl]) (by rw [hl])) (by rw [hl]; exact h.2)).mono
      fun _ _ _ ht => ⟨ht.1, by rw [ht.2]⟩
  | commit p q m hp hstep =>
    simp only [hp] at h
    exact h.step hstep
  | committed hp =>
    simp only [hp] at h
    exact ⟨h.2.1.with_log _ rfl rfl, by simp [h.2.2]⟩
  | crash =>
    rcases hrec with hb | ha
    · exact ⟨_, Or.inl rfl, hb.recover⟩
    · exact ⟨_, Or.inr rfl, ha.recover⟩
  | recover p q m hp hstep =>
    simp only [hp] at h
    obtain ⟨R, hR, h⟩ := h
    exact ⟨R, hR, h.step hstep⟩
  | recovered hp =>
    simp only [hp] at h
    obtain ⟨R, -, h⟩ := h
    exact ⟨h.2.1.settled, by simp [h.2.2]⟩

/-- So every run keeps it. -/
theorem CrashInvariant.reachable {s : CrashState} (h : (crashes G).Reachable s) :
    CrashInvariant G s := by
  apply h.invariant
  · rintro _ ⟨d, hs, rfl⟩
    exact ⟨_, Or.inl rfl, Outcome.recover ⟨hs, fun _ _ => rfl⟩⟩
  · intro s t _ hinv hst
    exact hinv.step hst

/-- However often the machine crashes: while operations run, the home blocks on disk are those of
the finished transactions; a commit that is left alone finishes the transaction; and a recovery
that is left alone ends with the header cleared and the transaction either undone or done. -/
theorem crash_atomicity {s : CrashState} (h : (crashes G).Reachable s) :
    (s.phase = .running →
      Cleared G s.mem.disk ∧ ∀ b, G.Home b → s.mem.disk b = s.before b) ∧
    (∀ p, s.phase = .commit p → ∃ t, p.run interp s.mem = .ok ((), t) ∧ Cleared G t.disk ∧
      ∀ b, G.Home b → t.disk b = s.after b) ∧
    (∀ p, s.phase = .recover p → ∃ t, p.run interp s.mem = .ok ((), t) ∧ Cleared G t.disk ∧
      ((∀ b, G.Home b → t.disk b = s.before b) ∨ ∀ b, G.Home b → t.disk b = s.after b)) := by
  have hinv := CrashInvariant.reachable h
  unfold CrashInvariant at hinv
  refine ⟨fun hp => ?_, fun p hp => ?_, fun p hp => ?_⟩
  · simp only [hp] at hinv
    exact ⟨hinv.1.cleared, hinv.1.before⟩
  · simp only [hp] at hinv
    obtain ⟨_, t, hrun, ht⟩ := (Prog.holds_iff_run p _).mp (hinv.weaken fun _ _ => trivial)
    exact ⟨t, hrun, ht.1.cleared, ht.1.before⟩
  · simp only [hp] at hinv
    obtain ⟨R, hR, hinv⟩ := hinv
    obtain ⟨_, t, hrun, ht⟩ := (Prog.holds_iff_run p _).mp (hinv.weaken fun _ _ => trivial)
    refine ⟨t, hrun, ht.1.cleared, ?_⟩
    rcases hR with rfl | rfl
    · exact Or.inl ht.1.before
    · exact Or.inr ht.1.before

/-- A crash in the middle of `commit`, and one in the middle of the recovery after it. -/
theorem crash_atomicity_interrupted : ∃ s t, (crashes ⟨2, 30⟩).Reachable s ∧
    s.phase = .recover (recoverFromLog ⟨2, 30⟩) ∧ s.txn = [(100, fun _ => 1)] ∧
    s.before 100 = (fun _ => 0) ∧ (recoverFromLog ⟨2, 30⟩).run interp s.mem = .ok ((), t) ∧
    Cleared ⟨2, 30⟩ t.disk ∧ t.disk 100 = fun _ => 1 := by
  have hcl : Cleared ⟨2, 30⟩ fun _ _ => 0 := by rfl
  have h : (crashes ⟨2, 30⟩).Reachable (.boot ⟨2, 30⟩ fun _ _ => 0) :=
    .init ⟨_, hcl.sound (by decide), rfl⟩
  iterate 10 replace h := h.step (.recover _ _ _ rfl (.op rfl))
  replace h := h.step (.recovered rfl)
  replace h := h.step (.beginOp rfl rfl)
  replace h := h.step (.write 100 (fun _ => 1) _ _ rfl (by decide) (by decide) rfl)
  replace h := h.step (.endLast _ rfl rfl)
  iterate 12 replace h := h.step (.commit _ _ _ rfl (.op rfl))
  replace h := h.step .crash
  iterate 8 replace h := h.step (.recover _ _ _ rfl (.op rfl))
  replace h := h.step .crash
  obtain ⟨t, hrun, hend, -⟩ := (crash_atomicity h).2.2 _ rfl
  refine ⟨_, t, h, rfl, rfl, rfl, hrun, hend, ?_⟩
  have hdisk := congrArg (fun r => r.toOption.map fun x => x.2.disk 100) hrun
  exact (Option.some.inj hdisk).symm

end Xv6.Log
