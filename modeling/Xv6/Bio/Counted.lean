import Xv6.Bio.Refinement

/-! Which blocks are pinned, and how often each buffer is referenced, whatever the blocks contain:
`commit` takes the pins away in the order of the list, without a look at the contents it copies. -/
namespace Xv6.Bio

open Lib Log

structure Pins where
  pins : ℕ → Bool
  lh : List ℕ

/-- What `commit` does to them. What it reads from buffers is left open. -/
def pinSemantics : Semantics interface Pins where
  safe
    | .bunpin b, s => s.pins b = true
    | _, _ => True
  step
    | .bunpin b, s, _, t => t = { s with pins := Function.update s.pins b false }
    | .getLh, s, lh, t => lh = s.lh ∧ t = s
    | .setLh lh, s, _, t => t = { s with lh := lh }
    | _, s, _, t => t = s

/-- No block is listed twice, and every pinned one is listed. -/
def Pins.Listed (s : Pins) : Prop := s.lh.Nodup ∧ ∀ b, s.pins b = true → b ∈ s.lh

/-- The code ends with no block listed and none pinned. -/
def Unpins (c : Code Unit) (s : Pins) : Prop :=
  c.Holds pinSemantics Pins.Listed (fun _ t => t.lh = [] ∧ ∀ b, t.pins b = false) s

section Commit

variable {α : Type} {Q : α → Pins → Prop} {s : Pins} {G : Geometry}

theorem holds_op {o : Op} {f : interface.Result o → Code α} (hs : s.Listed)
    (hsafe : pinSemantics.safe o s)
    (h : ∀ r t, pinSemantics.step o s r t → (f r).Holds pinSemantics Pins.Listed Q t) :
    (Prog.op o .ret >>= f).Holds pinSemantics Pins.Listed Q s :=
  ⟨hs, hsafe, h⟩

theorem holds_quiet {o : Op} {f : interface.Result o → Code α} (hs : s.Listed)
    (hsafe : pinSemantics.safe o s) (hstep : ∀ r t, pinSemantics.step o s r t → t = s)
    (h : ∀ r, (f r).Holds pinSemantics Pins.Listed Q s) :
    (Prog.op o .ret >>= f).Holds pinSemantics Pins.Listed Q s :=
  holds_op hs hsafe fun r t hst => hstep r t hst ▸ h r

theorem writeLogFrom_quiet (hs : s.Listed) (tail : ℕ) (lh : List ℕ) :
    (writeLogFrom G tail lh).Holds pinSemantics Pins.Listed (fun _ t => t = s) s := by
  induction lh generalizing tail with
  | nil => exact ⟨hs, rfl⟩
  | cons b lh ih =>
    refine holds_quiet (o := .bread _) hs trivial (fun _ _ => id) fun _ => ?_
    refine holds_quiet (o := .bread _) hs trivial (fun _ _ => id) fun _ => ?_
    refine holds_quiet (o := .store _ _) hs trivial (fun _ _ => id) fun _ => ?_
    refine holds_quiet (o := .bwrite _) hs trivial (fun _ _ => id) fun _ => ?_
    refine holds_quiet (o := .brelse _) hs trivial (fun _ _ => id) fun _ => ?_
    exact holds_quiet (o := .brelse _) hs trivial (fun _ _ => id) fun _ => ih (tail + 1)

theorem writeHead_quiet (hs : s.Listed) :
    (writeHead G).Holds pinSemantics Pins.Listed (fun _ t => t = s) s := by
  refine holds_quiet (o := .bread _) hs trivial (fun _ _ => id) fun _ => ?_
  refine holds_quiet (o := .getLh) hs trivial (fun _ _ => And.right) fun _ => ?_
  refine holds_quiet (o := .store _ _) hs trivial (fun _ _ => id) fun _ => ?_
  refine holds_quiet (o := .bwrite _) hs trivial (fun _ _ => id) fun _ => ?_
  exact ⟨hs, trivial, fun _ t hst => ⟨(show t = s from hst) ▸ hs, hst⟩⟩

/-- The blocks that are still to be installed are the pinned ones. -/
theorem installTransFrom_unpins (hs : s.Listed) (tail : ℕ) {lh : List ℕ} (hnd : lh.Nodup)
    (hp : ∀ b, s.pins b = true ↔ b ∈ lh) :
    (installTransFrom G false tail lh).Holds pinSemantics Pins.Listed
      (fun _ t => t.lh = s.lh ∧ ∀ b, t.pins b = false) s := by
  induction lh generalizing tail s with
  | nil =>
    refine ⟨hs, rfl, fun b => ?_⟩
    simpa using hp b
  | cons b lh ih =>
    obtain ⟨hb, hnd⟩ := List.nodup_cons.mp hnd
    refine holds_quiet (o := .bread _) hs trivial (fun _ _ => id) fun _ => ?_
    refine holds_quiet (o := .bread _) hs trivial (fun _ _ => id) fun _ => ?_
    refine holds_quiet (o := .store _ _) hs trivial (fun _ _ => id) fun _ => ?_
    refine holds_quiet (o := .bwrite _) hs trivial (fun _ _ => id) fun _ => ?_
    refine holds_op (o := .bunpin b) hs ((hp b).mpr List.mem_cons_self) ?_
    rintro _ _ rfl
    have hs' : Pins.Listed { s with pins := Function.update s.pins b false } := by
      refine ⟨hs.1, fun x hx => ?_⟩
      by_cases hxb : x = b
      · simp [hxb] at hx
      · exact hs.2 x (by simpa [hxb] using hx)
    refine holds_quiet (o := .brelse _) hs' trivial (fun _ _ => id) fun _ => ?_
    refine holds_quiet (o := .brelse _) hs' trivial (fun _ _ => id) fun _ => ?_
    refine ih hs' (tail + 1) hnd fun x => ?_
    by_cases hxb : x = b
    · simp [hxb, hb]
    · simp [hxb, hp x]

theorem commit_unpins (hs : s.Listed) (hp : ∀ b, s.pins b = true ↔ b ∈ s.lh) :
    Unpins (commit G) s := by
  refine holds_op (o := .getLh) hs trivial ?_
  rintro _ _ ⟨rfl, rfl⟩
  split_ifs with h0
  · refine (Prog.holds_bind _ _ _).mpr ?_
    refine holds_op (o := .getLh) hs trivial ?_
    rintro _ _ ⟨rfl, rfl⟩
    refine (writeLogFrom_quiet hs 0 _).mono ?_
    rintro _ _ - rfl
    refine (Prog.holds_bind _ _ _).mpr ((writeHead_quiet hs).mono ?_)
    rintro _ _ - rfl
    refine (Prog.holds_bind _ _ _).mpr ?_
    refine holds_op (o := .getLh) hs trivial ?_
    rintro _ _ ⟨rfl, rfl⟩
    refine (installTransFrom_unpins hs 0 hs.1 hp).mono ?_
    rintro _ t ht ⟨-, hnone⟩
    refine holds_op (o := .setLh []) ht trivial ?_
    rintro _ _ rfl
    have ht' : Pins.Listed { t with lh := [] } := ⟨List.nodup_nil, fun b hb => by simp [hnone b] at hb⟩
    refine (writeHead_quiet ht').mono ?_
    rintro _ _ - rfl
    exact ⟨rfl, hnone⟩
  · have hnil := List.eq_nil_of_length_eq_zero (Nat.eq_zero_of_not_pos h0)
    exact ⟨hs, hnil, fun b => by simpa [hnil] using hp b⟩

end Commit

/-- Every reference count is the number of holders and the pin, and the pins are those of the listed
blocks, or those that `commit` has not yet taken away. -/
structure Counted {N : ℕ} (s : Kernel N) (pins : ℕ → Bool) : Prop where
  wf : Wf s.bcache s.owner s.pc s.dirty pins
  busy : s.committer ≠ none → s.log.committing = true ∧ s.log.outstanding = 0
  running : s.committer = none → s.log.lh.Nodup ∧ ∀ b, pins b = true ↔ b ∈ s.log.lh
  commit : ∀ p, s.committer = some p → ∃ c, (s.pc p).rest = some c ∧ Unpins c ⟨pins, s.log.lh⟩

namespace Counted

variable {N : ℕ} {G : Geometry} {client : Code Unit → Prop} {s t : Kernel N} {pins pins' : ℕ → Bool}
  {p : Fin N} {d : Pc} {lh' : List ℕ}

theorem init (h : Initial G s) : Counted s fun _ => false := by
  refine ⟨⟨h.lru, h.unique, ?_, ?_, ?_, ?_, ?_, ?_, ?_⟩, ?_, ?_, ?_⟩
  · intro i
    simp [holders, h.refcnt i, h.owner i, h.pc, Pc.waits]
  all_goals simp [h.pc, h.owner, h.dirty, h.committer, h.log]

theorem listed (h : Counted s pins) : Pins.Listed ⟨pins, s.log.lh⟩ := by
  cases hc : s.committer with
  | none =>
    obtain ⟨hnd, hp⟩ := h.running hc
    exact ⟨hnd, fun b => (hp b).mp⟩
  | some p =>
    obtain ⟨c, -, hun⟩ := h.commit p hc
    exact hun.now

theorem not_committing (h : Counted s pins) (hcom : s.log.committing = false) : s.committer = none := by
  by_contra hc
  rw [(h.busy hc).1] at hcom
  cases hcom

/-- A process goes on without an operation. -/
theorem stay (h : Counted s pins) (hd : s.committer ≠ some p ∨ d.rest = (s.pc p).rest) :
    ∀ q, s.committer = some q →
      ∃ c, (Function.update s.pc p d q).rest = some c ∧ Unpins c ⟨pins, s.log.lh⟩ := by
  intro q hq
  obtain ⟨c, hc, hun⟩ := h.commit q hq
  refine ⟨c, ?_, hun⟩
  rw [Function.update_apply]
  split_ifs with hqp
  · subst hqp
    rw [hd.resolve_left (not_not.mpr hq), hc]
  · exact hc

/-- A process does an operation. -/
theorem advance (h : Counted s pins) {o : Op} {k : interface.Result o → Code Unit}
    {r : interface.Result o} (hp : (s.pc p).rest = some (.op o k)) (hd : d.rest = some (k r))
    (hst : pinSemantics.step o ⟨pins, s.log.lh⟩ r ⟨pins', lh'⟩)
    (hsame : s.committer ≠ some p → pins' = pins ∧ lh' = s.log.lh) :
    ∀ q, s.committer = some q →
      ∃ c, (Function.update s.pc p d q).rest = some c ∧ Unpins c ⟨pins', lh'⟩ := by
  intro q hq
  obtain ⟨c, hc, hun⟩ := h.commit q hq
  by_cases hqp : q = p
  · subst hqp
    obtain rfl := Option.some.inj (hp.symm.trans hc)
    exact ⟨k r, by rw [Function.update_self, hd], hun.2.2 r _ hst⟩
  · have hne : s.committer ≠ some p := fun hp' => hqp (Option.some.inj (hq.symm.trans hp'))
    obtain ⟨rfl, rfl⟩ := hsame hne
    exact ⟨c, by rwa [Function.update_of_ne hqp], hun⟩

theorem goto (h : Counted s pins) {c : Code Unit} (hp : s.pc p = .idle ∨ s.pc p = .run c)
    (hd : ∀ i b k, d ≠ .locking i b k ∧ d ≠ .filling i b k) (hw : d.waits = fun _ => 0) :
    Wf s.bcache s.owner (Function.update s.pc p d) s.dirty pins := by
  refine h.wf.goto ?_ ?_ (fun i b k => (hd i b k).1) fun i b k => (hd i b k).2
  · rcases hp with hp | hp <;> rw [hp, hw] <;> rfl
  · rcases hp with hp | hp <;> simp [hp]

theorem run (h : Counted s pins) {rest : Code Unit} (hp : s.pc p = .run rest) (rest' : Code Unit) :
    Wf s.bcache s.owner (Function.update s.pc p (.run rest')) s.dirty pins :=
  h.goto (Or.inr hp) (by simp) rfl

theorem logWrite (h : Counted s pins) (hc : s.committer = none) {b : ℕ} {l : Log} {pin : Bool}
    (hw : Log.logWrite s.log b = .ok (l, pin)) :
    l.lh.Nodup ∧ (pin = true → pins b = false) ∧
      ∀ x, (if pin then Function.update pins b true else pins) x = true ↔ x ∈ l.lh := by
  obtain ⟨hnd, hp⟩ := h.running hc
  obtain ⟨-, -, rfl, rfl⟩ := logWrite_ok hw
  by_cases hb : b ∈ s.log.lh
  · simpa [hb, hnd] using hp
  · have hbp : pins b = false := Bool.not_eq_true _ ▸ mt (hp b).mp hb
    refine ⟨?_, fun _ => hbp, fun x => ?_⟩
    · simp only [hb, if_false]
      exact List.nodup_append_comm.mp (List.nodup_cons.mpr ⟨hb, hnd⟩)
    · by_cases hx : x = b
      · simp [hx, hb]
      · simp [hx, hb, hp x]

/-- A step leaves the pins as they are, or is a `bunpin` of `commit` or a `bpin`. -/
theorem step (h : Counted s pins) (hst : Step G client s t) : ∃ pins', Counted t pins' ∧
    ∀ b, pins b = true → pins' b = true ∨
      ∃ p k, s.committer = some p ∧ (s.pc p).rest = some (.op (.bunpin b) k) := by
  have same : ∀ t : Kernel N, Counted t pins → ∃ pins', Counted t pins' ∧
      ∀ b, pins b = true → pins' b = true ∨
        ∃ p k, s.committer = some p ∧ (s.pc p).rest = some (.op (.bunpin b) k) :=
    fun t ht => ⟨pins, ht, fun _ => Or.inl⟩
  cases hst with
  | beginOp p hp hw =>
    have hc : s.committer = none := h.not_committing (by
      rw [← Bool.not_eq_true]
      intro hcom
      rw [mustWait_iff.mpr (Or.inl hcom)] at hw
      cases hw)
    exact same _ ⟨h.wf, fun hb => absurd hc hb, h.running, h.commit⟩
  | endOp p l hp he =>
    obtain ⟨hcom, -, rfl⟩ := endOp_ok he
    have hc := h.not_committing hcom
    exact same _ ⟨h.wf, fun hb => absurd hc hb, h.running, h.commit⟩
  | endLast p l hp he =>
    obtain ⟨hcom, hlast, rfl⟩ := endOp_ok he
    obtain ⟨hnd, hpins⟩ := h.running (h.not_committing hcom)
    refine same _ ⟨h.goto (c := .ret ()) (Or.inl hp) (by simp) rfl, fun _ => ⟨rfl, hlast.mp rfl⟩,
      (fun hc => by cases hc), fun q hq => ?_⟩
    obtain rfl := Option.some.inj hq
    exact ⟨Log.commit G, by simp [Kernel.goto, Pc.rest], commit_unpins ⟨hnd, fun b => (hpins b).mp⟩ hpins⟩
  | committed p hp hc =>
    obtain ⟨c, hrest, hun⟩ := h.commit p hc
    rw [hp, Pc.rest] at hrest
    obtain rfl := Option.some.inj hrest
    obtain ⟨-, hlh, hnone⟩ := hun
    refine same _ ⟨h.goto (Or.inr hp) (by simp) rfl, fun hb => absurd rfl hb, fun _ => ?_,
      fun q hq => by cases hq⟩
    rw [show s.log.lh = [] from hlh]
    exact ⟨List.nodup_nil, fun b => by simp [show pins b = false from hnone b]⟩
  | call p prog hp hcl =>
    refine same _ ⟨h.goto (c := .ret ()) (Or.inl hp) (by simp) rfl, h.busy, h.running,
      h.stay (Or.inl fun hc => ?_)⟩
    obtain ⟨c, hrest, -⟩ := h.commit p hc
    rw [hp] at hrest
    cases hrest
  | ret p hp hc => exact same _ ⟨h.goto (Or.inr hp) (by simp) rfl, h.busy, h.running, h.stay (Or.inl hc)⟩
  | bget p b k i c hp hg =>
    have hw : (s.pc p).waits = fun _ => 0 := by rw [hp]; rfl
    have hpf : ∀ i b k, s.pc p ≠ .filling i b k := by simp [hp]
    have hrest := h.stay (p := p) (d := .locking i b k) (Or.inr (by rw [hp, Pc.rest, Pc.rest]))
    rcases Bcache.bget_ok hg with ⟨hn, rfl⟩ | ⟨hn, h0, rfl⟩
    · exact same _ ⟨h.wf.bget_hit hw hpf hn, h.busy, h.running, hrest⟩
    · exact same _ ⟨h.wf.bget_miss hw hpf hn h0, h.busy, h.running, hrest⟩
  | acquiresleep p i b k hp ho =>
    exact same _ ⟨h.wf.acquiresleep hp ho, h.busy, h.running, h.stay (Or.inr (by rw [hp, Pc.rest, Pc.rest]))⟩
  | breadValid p i b k hp hv =>
    exact same _ ⟨h.wf.bread hp hv, h.busy, h.running,
      h.advance (o := .bread b) (by rw [hp, Pc.rest]) rfl rfl fun _ => ⟨rfl, rfl⟩⟩
  | breadDisk p i b k hp hv =>
    exact same _ ⟨(h.wf.set_data fun _ => rfl).bread hp (by simp), h.busy, h.running,
      h.advance (o := .bread b) (by rw [hp, Pc.rest]) rfl rfl fun _ => ⟨rfl, rfl⟩⟩
  | store p b c k i hp hc hi hb =>
    exact same _ ⟨((h.run hp _).set_data id).set_dirty (p := p) (by simp) hi.1 true, h.busy, h.running,
      h.stay (Or.inl hc)⟩
  | commitStore p b c k i hp hc hi =>
    exact same _ ⟨(h.run hp _).set_data id, h.busy, h.running,
      h.advance (o := .store b c) (by rw [hp, Pc.rest]) rfl rfl fun _ => ⟨rfl, rfl⟩⟩
  | bwrite p b k i hp hc hi =>
    exact same _ ⟨h.run hp _, h.busy, h.running,
      h.advance (o := .bwrite b) (by rw [hp, Pc.rest]) rfl rfl fun _ => ⟨rfl, rfl⟩⟩
  | logWrite p b k i l pin hp hc hi hb hw =>
    have hnone : s.committer = none := by
      by_contra hcom
      obtain ⟨-, hout⟩ := h.busy hcom
      unfold Log.logWrite at hw
      split_ifs at hw <;> omega
    obtain ⟨hnd, hpin, hiff⟩ := h.logWrite hnone hw
    have hdirty := (h.run hp (k ())).set_dirty (p := p) (by simp) hi.1 false
    refine ⟨_, ⟨?_, fun hcom => absurd hnone hcom, fun _ => ⟨hnd, hiff⟩, fun q hq => ?_⟩,
      fun x hx => Or.inl ((hiff x).mpr ?_)⟩
    · cases pin with
      | false => exact hdirty
      | true => exact hdirty.bpin hi.2 (hpin rfl)
    · cases hnone.symm.trans hq
    · have hx := ((h.running hnone).2 x).mp hx
      rw [(logWrite_ok hw).2.2.1]
      dsimp only
      split_ifs
      · exact hx
      · exact List.mem_append_left _ hx
  | bunpin p b k i hp hc hi =>
    obtain ⟨c, hrest, hun⟩ := h.commit p hc
    rw [hp, Pc.rest] at hrest
    obtain rfl := Option.some.inj hrest
    refine ⟨_, ⟨(h.run hp _).bunpin hi.2 hun.2.1, h.busy, (fun hn => by cases hc.symm.trans hn),
      h.advance (o := .bunpin b) (by rw [hp, Pc.rest]) rfl rfl fun hne => absurd hc hne⟩, fun x hx => ?_⟩
    by_cases hxb : x = b
    · subst hxb
      exact Or.inr ⟨p, k, hc, by rw [hp, Pc.rest]⟩
    · exact Or.inl (by simpa [hxb] using hx)
  | releasesleep p b k i hp hi =>
    exact same _ ⟨h.wf.releasesleep (k ()) (by rw [hp]; rfl) (by simp [hp]) hi.1, h.busy, h.running,
      h.advance (o := .brelse b) (by rw [hp, Pc.rest]) rfl rfl fun _ => ⟨rfl, rfl⟩⟩
  | brelse p i rest hp =>
    exact same _ ⟨h.wf.brelse hp, h.busy, h.running, h.stay (Or.inr (by rw [hp, Pc.rest, Pc.rest]))⟩
  | getLh p k hp hc =>
    exact same _ ⟨h.run hp _, h.busy, h.running,
      h.advance (o := .getLh) (by rw [hp, Pc.rest]) rfl ⟨rfl, rfl⟩ fun _ => ⟨rfl, rfl⟩⟩
  | setLh p lh k hp hc =>
    exact same _ ⟨h.run hp _, h.busy, (fun hn => by cases hc.symm.trans hn),
      h.advance (o := .setLh lh) (by rw [hp, Pc.rest]) rfl rfl fun hne => absurd hc hne⟩
  | _ => exact same _ ⟨h.wf, h.busy, h.running, h.commit⟩

/-- Whatever the operations write and release, the reference counts are right. -/
theorem of_reachable (h : (machine N G client).Reachable s) : ∃ pins, Counted s pins := by
  refine h.invariant (I := fun s => ∃ pins, Counted s pins) ?_ ?_
  · exact fun s hs => ⟨_, init hs⟩
  · rintro s t - ⟨pins, hs⟩ hst
    obtain ⟨pins', ht, -⟩ := hs.step hst.2
    exact ⟨pins', ht⟩

end Counted

end Xv6.Bio
