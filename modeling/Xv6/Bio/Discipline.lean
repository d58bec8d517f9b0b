import Xv6.Bio.Pinned

/-! Code that passes every buffer it has changed to `log_write` before it releases it loses no
change, whatever runs beside it. -/
namespace Xv6.Bio

open Lib Log

variable {N : ℕ} {G : Geometry} {client : Code Unit → Prop} {s t : Kernel N}

/-- Which blocks a piece of code has changed without recording them since; it may not release
these. What it reads is arbitrary. -/
def tracking : Semantics interface (Set ℕ) where
  safe o D := match o with
    | .brelse b => b ∉ D
    | _ => True
  step o D _ D' := match o with
    | .store b _ => D' = insert b D
    | .logWrite b => D' = D \ {b}
    | .panic _ => False
    | _ => D' = D

/-- The code runs on from where the blocks `D` are changed, and ends with every change recorded. -/
def Records (D : Set ℕ) {α : Type} (p : Code α) : Prop :=
  p.Holds tracking (fun _ => True) (fun _ D' => D' = ∅) D

/-- The code records what it changes before it releases it. -/
def Disciplined {α : Type} (p : Code α) : Prop := Records ∅ p

section Rules

variable {α β : Type} {b : ℕ}

theorem Disciplined.ret (a : α) : Disciplined (Prog.ret a : Code α) := ⟨trivial, rfl⟩

theorem Disciplined.bind {p : Code α} {f : α → Code β} (hp : Disciplined p)
    (hf : ∀ a, Disciplined (f a)) : Disciplined (p >>= f) := by
  apply (Prog.holds_bind p f _).mpr
  apply hp.mono
  rintro a _ - rfl
  exact hf a

theorem Disciplined.bread (b : ℕ) {k : Block → Code α} (h : ∀ c, Disciplined (k c)) :
    Disciplined (Bio.bread b >>= k) := by
  refine ⟨trivial, trivial, ?_⟩
  rintro c _ rfl
  exact h c

theorem Disciplined.brelse (b : ℕ) {k : Unit → Code α} (h : Disciplined (k ())) :
    Disciplined (Bio.brelse b >>= k) := by
  refine ⟨trivial, Set.notMem_empty b, ?_⟩
  rintro _ _ rfl
  exact h

theorem Disciplined.logWrite (b : ℕ) {k : Unit → Code α} (h : Disciplined (k ())) :
    Disciplined (Bio.logWrite b >>= k) := by
  refine ⟨trivial, trivial, ?_⟩
  intro _ D hD
  have : D = ∅ := by
    rw [hD, Set.empty_sdiff]
  rw [this]
  exact h

theorem Disciplined.update (b : ℕ) (c : Block) {k : Unit → Code α} (h : Disciplined (k ())) :
    Disciplined (Bio.store b c >>= fun _ => Bio.logWrite b >>= k) := by
  refine ⟨trivial, trivial, ?_⟩
  rintro _ _ rfl
  refine ⟨trivial, trivial, ?_⟩
  intro _ D hD
  have : D = ∅ := by
    rw [hD]
    simp
  rw [this]
  exact h

theorem Disciplined.panic (msg : String) : Disciplined (Bio.panic msg : Code α) :=
  ⟨trivial, trivial, fun _ _ h => h.elim⟩

end Rules

def Kernel.changed (s : Kernel N) (p : Fin N) : Set ℕ :=
  {b | ∃ i, s.Holds p i b ∧ s.dirty i = true}

/-- Every process will record what it has changed. In `commit` and between calls there is nothing
to record. -/
def Kernel.Tracked (s : Kernel N) : Prop :=
  ∀ p, match (s.pc p).rest with
    | none => s.changed p = ∅
    | some c => if s.committer = some p then s.changed p = ∅ else Records (s.changed p) c

theorem changed_congr (ho : ∀ i q, t.owner i = some q ↔ s.owner i = some q) (hd : t.dirty = s.dirty)
    (hn : ∀ i b, s.owner i ≠ none → (t.bcache.Names i rootDev b ↔ s.bcache.Names i rootDev b))
    (p : Fin N) : t.changed p = s.changed p := by
  ext b
  unfold Kernel.changed Kernel.Holds
  simp only [Set.mem_ofPred_eq, hd]
  constructor
  · rintro ⟨i, ⟨hoi, hni⟩, hdi⟩
    rw [ho] at hoi
    exact ⟨i, ⟨hoi, (hn i b (by simp [hoi])).mp hni⟩, hdi⟩
  · rintro ⟨i, ⟨hoi, hni⟩, hdi⟩
    exact ⟨i, ⟨(ho i p).mpr hoi, (hn i b (by simp [hoi])).mpr hni⟩, hdi⟩

namespace Kernel.Tracked

variable {p : Fin N}

theorem moved (h : s.Tracked) (hch : ∀ q, t.changed q = s.changed q)
    (hc : ∀ q, q ≠ p → (t.committer = some q ↔ s.committer = some q))
    (hpc : ∀ q, q ≠ p → t.pc q = s.pc q)
    (hp : match (t.pc p).rest with
      | none => s.changed p = ∅
      | some c => if t.committer = some p then s.changed p = ∅ else Records (s.changed p) c) :
    t.Tracked := by
  intro q
  by_cases hq : q = p
  · subst hq
    rw [hch]
    exact hp
  · rw [hpc q hq, hch]
    simp only [hc q hq]
    exact h q

theorem records (h : s.Tracked) (hc : s.committer ≠ some p) {c : Code Unit}
    (hp : (s.pc p).rest = some c) : Records (s.changed p) c := by
  have := h p
  rw [hp] at this
  simpa [hc] using this

theorem committing (h : s.Tracked) (hc : s.committer = some p) {c : Code Unit}
    (hp : (s.pc p).rest = some c) : s.changed p = ∅ := by
  have := h p
  rw [hp] at this
  simpa [hc] using this

theorem idle (h : s.Tracked) (hp : s.pc p = .idle) : s.changed p = ∅ := by
  have := h p
  rwa [hp] at this

theorem next (h : s.Tracked) {o : Op} {k : interface.Result o → Code Unit} {r : interface.Result o}
    (hp : (s.pc p).rest = some (.op o k))
    (hr : tracking.step o (s.changed p) r (s.changed p)) :
    if s.committer = some p then s.changed p = ∅ else Records (s.changed p) (k r) := by
  split_ifs with hc
  · exact h.committing hc hp
  · exact (h.records hc hp).2.2 r _ hr

theorem same_rest (h : s.Tracked) (hch : ∀ q, t.changed q = s.changed q)
    (hc : t.committer = s.committer) (hpc : ∀ q, (t.pc q).rest = (s.pc q).rest) : t.Tracked := by
  intro q
  rw [hpc, hch, hc]
  exact h q

end Kernel.Tracked

section Changes

variable {a : CrashState} {p q : Fin N} {i : Fin nbuf} {b : ℕ}

/-- Nothing that is locked gets another block when the cache finds or recycles a buffer. -/
theorem Wf.names_bget {pins : ℕ → Bool} {c : Bcache} {j : Fin nbuf} {x : ℕ}
    (h : Wf s.bcache s.owner s.pc s.dirty pins)
    (hg : s.bcache.bget rootDev b = .ok (i, c)) (ho : s.owner j ≠ none) :
    c.Names j rootDev x ↔ s.bcache.Names j rootDev x := by
  rcases Bcache.bget_ok hg with ⟨-, rfl⟩ | ⟨-, h0, rfl⟩
  · exact (Bcache.recounts_set _ _ _).names
  · have hji : j ≠ i := by
      rintro rfl
      exact ho (h.free h0).1
    simp [Bcache.Names, hji]

theorem names_fill {c : Bcache} {v : Bool} {data : Block} {j : Fin nbuf} {x : ℕ} :
    (c.set i { c.buf i with valid := v, data := data }).Names j rootDev x ↔ c.Names j rootDev x := by
  by_cases hj : j = i
  · subst hj
    simp [Bcache.Names]
  · simp [Bcache.Names, hj]

theorem rest_update {pc : Fin N → Pc} {d : Pc} (hd : d.rest = (pc p).rest) (q : Fin N) :
    (Function.update pc p d q).rest = (pc q).rest := by
  rw [Function.update_apply]
  split_ifs with hq
  · rw [hd, hq]
  · rfl

theorem changed_store (hi : s.Holds p i b) (c : Block) (d : Pc) (q : Fin N) :
    Kernel.changed { (s.goto p d).setData i c with dirty := Function.update s.dirty i true } q =
      if q = p then insert b (s.changed p) else s.changed q := by
  have hnames : ∀ j x, ((s.goto p d).setData i c).bcache.Names j rootDev x ↔
      s.bcache.Names j rootDev x := by
    intro j x
    by_cases hj : j = i
    · subst hj
      simp [Kernel.setData, Kernel.goto, Bcache.Names]
    · simp [Kernel.setData, Kernel.goto, Bcache.Names, hj]
  ext x
  have hmem : x ∈ Kernel.changed
      { (s.goto p d).setData i c with dirty := Function.update s.dirty i true } q ↔
      ∃ j, (s.owner j = some q ∧ s.bcache.Names j rootDev x) ∧ Function.update s.dirty i true j = true := by
    unfold Kernel.changed Kernel.Holds
    simp only [Set.mem_ofPred_eq, hnames]
    rfl
  rw [hmem]
  constructor
  · rintro ⟨j, ⟨hoj, hnj⟩, hdj⟩
    by_cases hj : j = i
    · subst hj
      have hq : q = p := by
        rw [hi.1] at hoj
        exact (Option.some.inj hoj).symm
      rw [if_pos hq]
      exact Or.inl (hnj.2.symm.trans hi.2.2)
    · rw [Function.update_of_ne hj] at hdj
      have hx : x ∈ s.changed q := ⟨j, ⟨hoj, hnj⟩, hdj⟩
      split_ifs with hq
      · exact Or.inr (hq ▸ hx)
      · exact hx
  · split_ifs with hq
    · subst hq
      rintro (rfl | ⟨j, hj, hdj⟩)
      · exact ⟨i, hi, by rw [Function.update_self]⟩
      · refine ⟨j, hj, ?_⟩
        rw [Function.update_apply, hdj, ite_self]
    · rintro ⟨j, hj, hdj⟩
      refine ⟨j, hj, ?_⟩
      rw [Function.update_apply, hdj, ite_self]

theorem changed_record {pins : ℕ → Bool} (h : Wf s.bcache s.owner s.pc s.dirty pins)
    (hi : s.Holds p i b) (ho : ∀ j q, t.owner j = some q → s.owner j = some q)
    (ho' : ∀ j q, j ≠ i → s.owner j = some q → t.owner j = some q)
    (hd : t.dirty = Function.update s.dirty i false)
    (hn : ∀ j x, t.bcache.Names j rootDev x ↔ s.bcache.Names j rootDev x) (q : Fin N) :
    t.changed q = if q = p then s.changed p \ {b} else s.changed q := by
  ext x
  unfold Kernel.changed Kernel.Holds
  simp only [Set.mem_ofPred_eq, hn, hd]
  constructor
  · rintro ⟨j, ⟨hoj, hnj⟩, hdj⟩
    have hji : j ≠ i := by
      rintro rfl
      simp at hdj
    rw [Function.update_of_ne hji] at hdj
    have hx : x ∈ s.changed q := ⟨j, ⟨ho j q hoj, hnj⟩, hdj⟩
    split_ifs with hq
    · refine ⟨hq ▸ hx, ?_⟩
      rintro rfl
      exact hji (h.unique j i x hnj hi.2)
    · exact hx
  · intro hx
    have key : ∀ j, (s.owner j = some q ∧ s.bcache.Names j rootDev x) → s.dirty j = true → j ≠ i →
        ∃ j, (t.owner j = some q ∧ s.bcache.Names j rootDev x) ∧
          Function.update s.dirty i false j = true := by
      rintro j ⟨hoj, hnj⟩ hdj hji
      exact ⟨j, ⟨ho' j q hji hoj, hnj⟩, by rwa [Function.update_of_ne hji]⟩
    split_ifs at hx with hq
    · subst hq
      obtain ⟨⟨j, hj, hdj⟩, hxb⟩ := hx
      refine key j hj hdj ?_
      rintro rfl
      exact hxb (hj.2.2.symm.trans hi.2.2)
    · obtain ⟨j, hj, hdj⟩ := hx
      refine key j hj hdj ?_
      rintro rfl
      rw [hi.1] at hj
      exact hq (Option.some.inj hj.1).symm

end Changes

/-- A step of disciplined code leaks nothing: a buffer is released with its changes recorded. -/
theorem Kernel.Tracked.step {a : CrashState} (h : s.Tracked) (hm : Mirrors s a)
    (hcl : ∀ prog, client prog → Disciplined prog) (hst : Step G client s t) :
    t.leaked = s.leaked ∧ t.Tracked := by
  have hsame : ∀ {t : Kernel N}, t.owner = s.owner → t.dirty = s.dirty →
      (∀ i b, s.owner i ≠ none → (t.bcache.Names i rootDev b ↔ s.bcache.Names i rootDev b)) →
      ∀ q, t.changed q = s.changed q :=
    fun ho hd hn q => changed_congr (fun i r => by rw [ho]) hd hn q
  have hpc : ∀ (p : Fin N) (d : Pc) q, q ≠ p → Function.update s.pc p d q = s.pc q :=
    fun p d q hq => Function.update_of_ne hq d s.pc
  cases hst with
  | beginOp p hp hw => exact ⟨rfl, h⟩
  | endOp p l hp he => exact ⟨rfl, h⟩
  | endPanic p msg hp he => exact ⟨rfl, h⟩
  | bgetPanic p b k msg hp hg => exact ⟨rfl, h⟩
  | logWritePanic p b k msg hp hw => exact ⟨rfl, h⟩
  | brelsePanic p b k hp hi => exact ⟨rfl, h⟩
  | panic p msg k hp => exact ⟨rfl, h⟩
  | endLast p l hp he =>
    have hc := hm.not_committing (endOp_ok he).1
    refine ⟨rfl, h.moved (p := p) (hsame rfl rfl fun _ _ _ => Iff.rfl) ?_ (hpc p _) ?_⟩
    · intro q hq
      simp [hc, Ne.symm hq]
    · simp [Kernel.goto, Pc.rest, h.idle hp]
  | committed p hp hc =>
    refine ⟨rfl, h.moved (p := p) (hsame rfl rfl fun _ _ _ => Iff.rfl) ?_ (hpc p _) ?_⟩
    · intro q hq
      simp [hc, Ne.symm hq]
    · simp [Kernel.goto, Pc.rest, h.committing hc (by rw [hp, Pc.rest])]
  | call p prog hp hc =>
    refine ⟨rfl, h.moved (p := p) (hsame rfl rfl fun _ _ _ => Iff.rfl) (fun _ _ => Iff.rfl)
      (hpc p _) ?_⟩
    simp only [Kernel.goto, Function.update_self, Pc.rest, h.idle hp, if_true_left]
    exact fun _ => hcl prog hc
  | ret p hp hc =>
    refine ⟨rfl, h.moved (p := p) (hsame rfl rfl fun _ _ _ => Iff.rfl) (fun _ _ => Iff.rfl)
      (hpc p _) ?_⟩
    simp only [Kernel.goto, Function.update_self, Pc.rest]
    exact (h.records hc (c := .ret ()) (by rw [hp, Pc.rest])).2
  | bget p b k i c hp hg =>
    refine ⟨rfl, h.same_rest (hsame rfl rfl fun j x ho => hm.wf.names_bget hg ho) rfl ?_⟩
    exact rest_update (by rw [hp, Pc.rest, Pc.rest])
  | acquiresleep p i b k hp ho =>
    refine ⟨rfl, h.same_rest (fun q => ?_) rfl (rest_update (by rw [hp, Pc.rest, Pc.rest]))⟩
    have hclean : s.dirty i = false := by
      rw [← Bool.not_eq_true]
      intro hd
      exact hm.wf.dirty i hd ho
    have hiff : ∀ j, s.dirty j = true →
        (Function.update s.owner i (some p) j = some q ↔ s.owner j = some q) := by
      intro j hdj
      have hji : j ≠ i := by
        rintro rfl
        rw [hclean] at hdj
        exact absurd hdj (by decide)
      rw [Function.update_of_ne hji]
    ext x
    constructor
    · rintro ⟨j, ⟨hoj, hnj⟩, hdj⟩
      exact ⟨j, ⟨(hiff j hdj).mp hoj, hnj⟩, hdj⟩
    · rintro ⟨j, ⟨hoj, hnj⟩, hdj⟩
      exact ⟨j, ⟨(hiff j hdj).mpr hoj, hnj⟩, hdj⟩
  | breadValid p i b k hp hv =>
    refine ⟨rfl, h.moved (p := p) (hsame rfl rfl fun _ _ _ => Iff.rfl) (fun _ _ => Iff.rfl)
      (hpc p _) ?_⟩
    simp only [Kernel.goto, Function.update_self, Pc.rest]
    exact h.next (o := .bread b) (k := k) (by rw [hp, Pc.rest]) rfl
  | breadDisk p i b k hp hv =>
    refine ⟨rfl, h.moved (p := p) (hsame rfl rfl fun j x _ => names_fill) (fun _ _ => Iff.rfl)
      (hpc p _) ?_⟩
    simp only [Kernel.goto, Function.update_self, Pc.rest]
    exact h.next (o := .bread b) (k := k) (by rw [hp, Pc.rest]) rfl
  | store p b c k i hp hc hi hb =>
    refine ⟨rfl, fun q => ?_⟩
    rw [changed_store hi]
    by_cases hq : q = p
    · subst hq
      simp only [Kernel.setData, Kernel.goto, Function.update_self, Pc.rest, hc, if_true, if_false]
      exact (h.records hc (c := .op (.store b c) k) (by rw [hp, Pc.rest])).2.2 () _ rfl
    · simp only [Kernel.setData, Kernel.goto, hpc p _ q hq, if_neg hq]
      exact h q
  | commitStore p b c k i hp hc hi =>
    refine ⟨rfl, h.moved (p := p) (hsame rfl rfl fun j x _ => names_fill) (fun _ _ => Iff.rfl)
      (hpc p _) ?_⟩
    simp [Kernel.setData, Kernel.goto, Pc.rest, hc, h.committing hc (by rw [hp, Pc.rest])]
  | bwrite p b k i hp hc hi =>
    refine ⟨rfl, h.moved (p := p) (hsame rfl rfl fun _ _ _ => Iff.rfl) (fun _ _ => Iff.rfl)
      (hpc p _) ?_⟩
    simp [Kernel.goto, Pc.rest, hc, h.committing hc (by rw [hp, Pc.rest])]
  | logWrite p b k i l pin hp hc hi hb hw =>
    refine ⟨rfl, fun q => ?_⟩
    have hn : ∀ j x, (if pin then s.bcache.bpin i else s.bcache).Names j rootDev x ↔
        s.bcache.Names j rootDev x := by
      intro j x
      split_ifs
      · exact (Bcache.recounts_set _ _ _).names
      · exact Iff.rfl
    rw [changed_record hm.wf hi (t := { s.goto p (.run (k ())) with
      log := l
      bcache := if pin then s.bcache.bpin i else s.bcache
      dirty := Function.update s.dirty i false
      logged := Function.update s.logged b (s.bcache.buf i).data }) (fun _ _ h => h)
      (fun _ _ _ h => h) rfl hn]
    by_cases hq : q = p
    · subst hq
      simp only [Kernel.goto, Function.update_self, Pc.rest, hc, if_true, if_false]
      exact (h.records hc (c := .op (.logWrite b) k) (by rw [hp, Pc.rest])).2.2 () _ rfl
    · simp only [Kernel.goto, hpc p _ q hq, if_neg hq]
      exact h q
  | bunpin p b k i hp hc hi =>
    refine ⟨rfl, h.moved (p := p) (hsame rfl rfl fun j x _ => (Bcache.recounts_set _ _ _).names)
      (fun _ _ => Iff.rfl) (hpc p _) ?_⟩
    simp [Kernel.goto, Pc.rest, hc, h.committing hc (by rw [hp, Pc.rest])]
  | releasesleep p b k i hp hi =>
    have hclean : b ∉ s.changed p := by
      by_cases hc : s.committer = some p
      · rw [h.committing hc (c := .op (.brelse b) k) (by rw [hp, Pc.rest])]
        exact Set.notMem_empty b
      · exact (h.records hc (c := .op (.brelse b) k) (by rw [hp, Pc.rest])).2.1
    have hd : s.dirty i = false := by
      rw [← Bool.not_eq_true]
      intro hd
      exact hclean ⟨i, hi, hd⟩
    refine ⟨by simp [hd], h.moved (p := p) (fun q => ?_) (fun _ _ => Iff.rfl) (hpc p _) ?_⟩
    · rw [changed_record hm.wf hi (t := { s.goto p (.releasing i (k ())) with
        owner := Function.update s.owner i none
        dirty := Function.update s.dirty i false
        leaked := s.leaked || s.dirty i }) ?_ ?_ rfl fun _ _ => Iff.rfl]
      · split_ifs with hq
        · rw [hq, Set.sdiff_singleton_eq_self hclean]
        · rfl
      · intro j q hj
        have hji : j ≠ i := by
          rintro rfl
          simp at hj
        simpa [hji] using hj
      · intro j q hji hj
        simpa [hji] using hj
    · simp only [Kernel.goto, Function.update_self, Pc.rest]
      exact h.next (o := .brelse b) (k := k) (by rw [hp, Pc.rest]) rfl
  | brelse p i rest hp =>
    refine ⟨rfl, h.same_rest (hsame rfl rfl fun j x _ => (Bcache.recounts_brelse _ _).names) rfl ?_⟩
    exact rest_update (by rw [hp, Pc.rest, Pc.rest])
  | getLh p k hp hc =>
    refine ⟨rfl, h.moved (p := p) (hsame rfl rfl fun _ _ _ => Iff.rfl) (fun _ _ => Iff.rfl)
      (hpc p _) ?_⟩
    simp [Kernel.goto, Pc.rest, hc, h.committing hc (by rw [hp, Pc.rest])]
  | setLh p lh k hp hc =>
    refine ⟨rfl, h.moved (p := p) (hsame rfl rfl fun _ _ _ => Iff.rfl) (fun _ _ => Iff.rfl)
      (hpc p _) ?_⟩
    simp [Kernel.goto, Pc.rest, hc, h.committing hc (by rw [hp, Pc.rest])]

theorem not_leaked (hcl : ∀ prog, client prog → Disciplined prog)
    (h : (machine N G client).Reachable s) : s.leaked = false := by
  suffices s.leaked = false ∧ s.Tracked from this.1
  apply h.invariant
  · intro s h0
    refine ⟨h0.leaked, fun p => ?_⟩
    rw [h0.pc p, Pc.rest]
    ext b
    simp [Kernel.changed, h0.dirty]
  · rintro s t hs ⟨hl, ht⟩ ⟨-, hst⟩
    obtain ⟨a, -, hm⟩ := mirrored hs hl
    obtain ⟨hleak, ht'⟩ := ht.step hm hcl hst
    exact ⟨hleak.trans hl, ht'⟩

end Xv6.Bio
