import Xv6.Bio.Contents
import Xv6.Bio.References
import Xv6.Log.CrashAtomicity

/-! The buffer cache refines the log machine, whose cache is just contents: as long as every change
is recorded before the buffer is released, a locked buffer shows the contents the log machine has
for its block. -/
namespace Xv6.Bio

open Lib Log

variable {N : ℕ} {G : Geometry} {client : Code Unit → Prop} {s t : Kernel N} {a : CrashState}

def Pc.rest : Pc → Option (Code Unit)
  | .idle => none
  | .run c => some c
  | .locking _ b k => some (.op (.bread b) k)
  | .filling _ b k => some (.op (.bread b) k)
  | .releasing _ c => some c

/-- The phase of the log machine that corresponds to the process in `commit`. -/
def SamePhase (committer : Option (Fin N)) (pc : Fin N → Pc) (phase : Phase) : Prop :=
  match committer with
  | none => phase = .running
  | some p => ∃ c, (pc p).rest = some c ∧ phase = .commit c

structure Mirrors (s : Kernel N) (a : CrashState) : Prop where
  wf : Wf s.bcache s.owner s.pc s.dirty a.mem.pins
  disk : a.mem.disk = s.disk
  log : a.mem.log = s.log
  phase : SamePhase s.committer s.pc a.phase
  busy : s.committer ≠ none → s.log.committing = true ∧ s.log.outstanding = 0
  held : ∀ b, a.mem.held b = true → ∃ p i, s.committer = some p ∧ s.Holds p i b ∧
    s.dirty i = false ∧ ∀ b k, s.pc p ≠ .filling i b k
  shows : Shows s.bcache s.dirty s.disk a.mem.cache
  logged : ∀ u ∈ a.txn, s.logged u.1 = a.after u.1

/-- Outside recovery, a buffer that is neither locked nor pinned has the contents of the disk. -/
theorem coherent_of_invariant (h : CrashInvariant G a) (hp : ∀ c, a.phase ≠ .recover c) {b : ℕ}
    (hb : a.mem.held b = false) (hpin : a.mem.pins b = false) : a.mem.cache b = a.mem.disk b := by
  unfold CrashInvariant at h
  split at h
  · exact h.1.atRest.coherent b hpin
  · exact h.now.coherent b hb hpin
  · next c hc => exact absurd hc (hp c)

theorem commit_safe {o : Op} {k : interface.Result o → Code Unit} (h : CrashInvariant G a)
    (hp : a.phase = .commit (.op o k)) : ∃ r m, interp o a.mem = .ok (r, m) := by
  unfold CrashInvariant at h
  simp only [hp] at h
  obtain ⟨⟨r, m⟩, hr⟩ := h.2.1
  exact ⟨r, m, hr⟩

theorem commit_run {o : Op} {k : interface.Result o → Code Unit} {r : interface.Result o} {m : Mem}
    (hp : a.phase = .commit (.op o k)) (hr : interp o a.mem = .ok (r, m)) :
    (crashes G).Moves a { a with mem := m, phase := .commit (k r) } :=
  Or.inr (.commit _ _ _ hp (.op hr))

namespace Mirrors

variable {p : Fin N} {i : Fin nbuf} {b : ℕ}

theorem not_recover (h : Mirrors s a) (c : Code Unit) : a.phase ≠ .recover c := by
  have := h.phase
  unfold SamePhase at this
  intro hc
  split at this
  · rw [hc] at this
    cases this
  · obtain ⟨d, -, hd⟩ := this
    rw [hc] at hd
    cases hd

theorem not_committing (h : Mirrors s a) (hcom : s.log.committing = false) :
    s.committer = none := by
  by_contra hc
  rw [(h.busy hc).1] at hcom
  exact absurd hcom (by decide)

theorem running (h : Mirrors s a) (hc : s.committer = none) : a.phase = .running := by
  simpa [SamePhase, hc] using h.phase

theorem commit_phase (h : Mirrors s a) (hc : s.committer = some p) {c : Code Unit}
    (hp : (s.pc p).rest = some c) : a.phase = .commit c := by
  obtain ⟨d, hd, ha⟩ : ∃ c, (s.pc p).rest = some c ∧ a.phase = .commit c := by
    simpa [SamePhase, hc] using h.phase
  rw [hp] at hd
  rw [ha, Option.some.inj hd]

/-- A buffer that nobody has locked and that is not pinned has the contents of the disk. -/
theorem coherent (h : Mirrors s a) (hinv : CrashInvariant G a) (hn : s.bcache.Names i rootDev b)
    (ho : s.owner i = none) (hpin : a.mem.pins b = false) : a.mem.cache b = s.disk b := by
  have hheld : a.mem.held b = false := by
    rw [← Bool.not_eq_true]
    intro hb
    obtain ⟨q, j, -, ⟨hoj, hnj⟩, -⟩ := h.held b hb
    rw [h.wf.unique j i b hnj hn, ho] at hoj
    exact absurd hoj (by simp)
  rw [coherent_of_invariant hinv h.not_recover hheld hpin, h.disk]

theorem samePhase_goto (h : SamePhase s.committer s.pc a.phase) (hc : s.committer ≠ some p) (d : Pc) :
    SamePhase s.committer (Function.update s.pc p d) a.phase := by
  unfold SamePhase at h ⊢
  split at h
  · exact h
  · next q hq =>
    have hqp : q ≠ p := by
      rintro rfl
      exact hc hq
    rwa [Function.update_of_ne hqp]

theorem samePhase_commit {committer : Option (Fin N)} (hc : committer = some p) {d : Pc}
    {rest : Code Unit} (hd : d.rest = some rest) :
    SamePhase committer (Function.update s.pc p d) (.commit rest) := by
  subst hc
  exact ⟨rest, by rw [Function.update_self, hd], rfl⟩

theorem samePhase_rest (h : SamePhase s.committer s.pc a.phase) {d : Pc}
    (hd : d.rest = (s.pc p).rest) : SamePhase s.committer (Function.update s.pc p d) a.phase := by
  have hrest : ∀ q, (Function.update s.pc p d q).rest = (s.pc q).rest := by
    intro q
    rw [Function.update_apply]
    split_ifs with hqp
    · rw [hd, hqp]
    · rfl
  unfold SamePhase at h ⊢
  simp only [hrest]
  exact h

theorem held_goto (h : Mirrors s a) (hc : s.committer ≠ some p) (d : Pc) (hb : a.mem.held b = true) :
    ∃ q i, s.committer = some q ∧ q ≠ p ∧ s.Holds q i b ∧ s.dirty i = false ∧
      ∀ b k, Function.update s.pc p d q ≠ .filling i b k := by
  obtain ⟨q, i, hq, hi, hd, hf⟩ := h.held b hb
  have hqp : q ≠ p := by
    rintro rfl
    exact hc hq
  exact ⟨q, i, hq, hqp, hi, hd, by rwa [Function.update_of_ne hqp]⟩

theorem goto (h : Mirrors s a) (hc : s.committer ≠ some p) {d : Pc}
    (hw : (s.pc p).waits = d.waits) (hp : ∀ i b k, s.pc p ≠ .filling i b k)
    (hl : ∀ i b k, d ≠ .locking i b k) (hf : ∀ i b k, d ≠ .filling i b k) :
    Mirrors (s.goto p d) a where
  wf := h.wf.goto hw hp hl hf
  disk := h.disk
  log := h.log
  phase := samePhase_goto h.phase hc d
  busy := h.busy
  held b hb := by
    obtain ⟨q, i, hq, -, hi, hd, hf⟩ := h.held_goto hc d hb
    exact ⟨q, i, hq, hi, hd, hf⟩
  shows := h.shows
  logged := h.logged

theorem set_outstanding (h : Mirrors s a) (hc : s.committer = none) (n : ℤ) :
    Mirrors { s with log := { s.log with outstanding := n } }
      { a with mem := { a.mem with log := { s.log with outstanding := n } } } where
  wf := h.wf
  disk := h.disk
  log := rfl
  phase := h.phase
  busy hb := absurd hc hb
  held := h.held
  shows := h.shows
  logged := h.logged

theorem endLast (h : Mirrors s a) (hinv : CrashInvariant G a) (hc : s.committer = none)
    (hp : s.pc p = .idle) :
    Mirrors { s.goto p (.run (commit G)) with
        log := { s.log with outstanding := 0, committing := true }, committer := some p }
      { a with
        mem := { a.mem with log := { a.mem.log with outstanding := 0, committing := true } }
        phase := .commit (commit G) } where
  wf := h.wf.goto (by rw [hp]; rfl) (by simp [hp]) (by simp) (by simp)
  disk := h.disk
  log := by simp only [h.log]
  phase := ⟨_, by simp [Kernel.goto, Pc.rest], rfl⟩
  busy _ := ⟨rfl, rfl⟩
  held b hb := by
    unfold CrashInvariant at hinv
    simp only [h.running hc] at hinv
    exact absurd hb (by simp [hinv.1.held b])
  shows := h.shows
  logged := h.logged

theorem committed (h : Mirrors s a) (hinv : CrashInvariant G a) (hc : s.committer = some p)
    (hp : s.pc p = .run (.ret ())) :
    Mirrors { s.goto p .idle with
        log := { s.log with committing := false }, committer := none }
      { a with
        mem := { a.mem with log := { a.mem.log with committing := false } }
        phase := .running, before := a.after, txn := [] } := by
  have hph : a.phase = .commit (.ret ()) := h.commit_phase hc (by rw [hp, Pc.rest])
  unfold CrashInvariant at hinv
  simp only [hph] at hinv
  constructor
  · exact h.wf.goto (by rw [hp]; rfl) (by simp [hp]) (by simp) (by simp)
  · exact h.disk
  · simp only [h.log]
  · rfl
  · simp
  · intro b hb
    exact absurd hb (by simp [hinv.2.1.held b])
  · exact h.shows
  · simp

theorem bget (h : Mirrors s a) (hinv : CrashInvariant G a) {k : Block → Code Unit} {c : Bcache}
    (hp : s.pc p = .run (.op (.bread b) k)) (hg : s.bcache.bget rootDev b = .ok (i, c)) :
    Mirrors { s.goto p (.locking i b k) with bcache := c } a := by
  have hw : (s.pc p).waits = fun _ => 0 := by rw [hp]; rfl
  have hpf : ∀ i b k, s.pc p ≠ .filling i b k := by simp [hp]
  have hphase : SamePhase s.committer (Function.update s.pc p (.locking i b k)) a.phase :=
    samePhase_rest h.phase (by rw [hp, Pc.rest, Pc.rest])
  have hfill : ∀ q j, (∀ b k, s.pc q ≠ .filling j b k) →
      ∀ b' k', Function.update s.pc p (.locking i b k) q ≠ .filling j b' k' := by
    intro q j hq b' k'
    rw [Function.update_apply]
    split_ifs
    · simp
    · exact hq b' k'
  rcases Bcache.bget_ok hg with ⟨hn, rfl⟩ | ⟨hn, h0, rfl⟩
  · have hrec := Bcache.recounts_set s.bcache i ((s.bcache.buf i).refcnt + 1)
    refine ⟨h.wf.bget_hit hw hpf hn, h.disk, h.log, hphase, h.busy, ?_, h.shows.recount hrec, h.logged⟩
    intro x hx
    obtain ⟨q, j, hq, hj, hd, hf⟩ := h.held x hx
    exact ⟨q, j, hq, ⟨hj.1, hrec.names.mpr hj.2⟩, hd, hfill q j hf⟩
  · obtain ⟨ho, -, hpin⟩ := h.wf.free h0
    refine ⟨h.wf.bget_miss hw hpf hn h0, h.disk, h.log, hphase, h.busy, ?_, ?_, h.logged⟩
    · intro x hx
      obtain ⟨q, j, hq, hj, hd, hf⟩ := h.held x hx
      have hji : j ≠ i := by
        rintro rfl
        rw [hj.1] at ho
        exact absurd ho (by simp)
      exact ⟨q, j, hq, ⟨hj.1, by simpa [Bcache.Names, hji] using hj.2⟩, hd, hfill q j hf⟩
    · apply h.shows.recycle
      intro x hx
      exact h.coherent hinv hx ho (hx.2 ▸ hpin hx.1)

theorem acquiresleep (h : Mirrors s a) {k : Block → Code Unit} (hp : s.pc p = .locking i b k)
    (ho : s.owner i = none) :
    Mirrors { s.goto p (.filling i b k) with owner := Function.update s.owner i (some p) } a where
  wf := h.wf.acquiresleep hp ho
  disk := h.disk
  log := h.log
  phase := samePhase_rest h.phase (by rw [hp, Pc.rest, Pc.rest])
  busy := h.busy
  held x hx := by
    obtain ⟨q, j, hq, hj, hd, hf⟩ := h.held x hx
    have hji : j ≠ i := by
      rintro rfl
      rw [hj.1] at ho
      exact absurd ho (by simp)
    refine ⟨q, j, hq, ⟨by simpa [Kernel.goto, hji] using hj.1, hj.2⟩, hd, fun b' k' => ?_⟩
    simp only [Kernel.goto, Function.update_apply]
    split_ifs
    · simp [hji.symm]
    · exact hf b' k'
  shows := h.shows
  logged := h.logged

theorem of_holds (h : Mirrors s a) (hi : s.Holds p i b) (hp : ∀ i b k, s.pc p ≠ .filling i b k) :
    (∀ j, s.bcache.Names j rootDev b → j = i) ∧ (s.bcache.buf i).valid = true := by
  refine ⟨fun j hj => h.wf.unique j i b hj hi.2, ?_⟩
  rcases h.wf.valid i p hi.1 with hv | ⟨b', k', hk⟩
  · exact hv
  · exact absurd hk (hp i b' k')

theorem bread_data (h : Mirrors s a) {k : Block → Code Unit} (hp : s.pc p = .filling i b k) :
    (if (s.bcache.buf i).valid then (s.bcache.buf i).data else s.disk b) = a.mem.cache b := by
  obtain ⟨-, hn, hd⟩ := h.wf.filling p i b k hp
  split_ifs with hv
  · exact h.shows.content i b hn hv hd
  · rw [Bool.not_eq_true] at hv
    rw [h.shows.uncached b fun j hj => by rw [h.wf.unique j i b hj hn, hv]]

/-- `bread` is a sequence of moves of the machine of the log. -/
theorem bread_step (h : Mirrors s a) (hinv : CrashInvariant G a) {k : Block → Code Unit}
    (hp : s.pc p = .filling i b k) :
    ∃ a', (crashes G).Moves a a' ∧ a'.mem.pins = a.mem.pins ∧ a'.mem.disk = a.mem.disk ∧
      a'.mem.cache = a.mem.cache ∧ a'.mem.log = a.mem.log ∧ a'.before = a.before ∧
      a'.txn = a.txn ∧
      (∀ x, a'.mem.held x = true → a.mem.held x = true ∨ x = b ∧ s.committer = some p) ∧
      SamePhase s.committer (Function.update s.pc p (.run (k (a.mem.cache b)))) a'.phase := by
  by_cases hc : s.committer = some p
  · have hph := h.commit_phase hc (c := .op (.bread b) k) (by rw [hp, Pc.rest])
    obtain ⟨r, m, hr⟩ := commit_safe hinv hph
    have hok := hr
    simp only [interp] at hok
    split_ifs at hok with hheld
    cases hok
    refine ⟨_, commit_run hph hr, rfl, rfl, rfl, rfl, rfl, rfl, fun x hx => ?_, ?_⟩
    · by_cases hxb : x = b
      · exact Or.inr ⟨hxb, hc⟩
      · exact Or.inl (by simpa [hxb] using hx)
    · exact samePhase_commit hc rfl
  · exact ⟨a, Or.inl rfl, rfl, rfl, rfl, rfl, rfl, rfl, fun x hx => Or.inl hx,
      samePhase_goto h.phase hc _⟩

theorem bread (h : Mirrors s a) (hinv : CrashInvariant G a) {k : Block → Code Unit} {c : Bcache}
    (hp : s.pc p = .filling i b k)
    (hc : c = s.bcache ∧ (s.bcache.buf i).valid = true ∨ (s.bcache.buf i).valid = false ∧
      c = s.bcache.set i { s.bcache.buf i with valid := true, data := s.disk b }) :
    ∃ a', (crashes G).Moves a a' ∧
      Mirrors { s.goto p (.run (k (a.mem.cache b))) with bcache := c } a' := by
  obtain ⟨ho, hn, hd⟩ := h.wf.filling p i b k hp
  obtain ⟨a', hrun, hpins, hdisk, hcache, hlog, hbefore, htxn, hheld, hphase⟩ :=
    h.bread_step hinv hp
  have hnames : ∀ j x, c.Names j rootDev x ↔ s.bcache.Names j rootDev x := by
    intro j x
    rcases hc with ⟨rfl, -⟩ | ⟨-, rfl⟩
    · rfl
    · by_cases hji : j = i
      · subst hji
        simp [Bcache.Names]
      · simp [Bcache.Names, hji]
  refine ⟨a', hrun, ?_, ?_, ?_, hphase, h.busy, ?_, ?_, ?_⟩
  · rw [hpins]
    rcases hc with ⟨rfl, hv⟩ | ⟨-, rfl⟩
    · exact h.wf.bread hp hv
    · exact (h.wf.set_data fun _ => rfl).bread hp (by simp)
  · rw [hdisk, h.disk]
    rfl
  · rw [hlog, h.log]
    rfl
  · intro x hx
    rcases hheld x hx with hx | ⟨rfl, hcom⟩
    · obtain ⟨q, j, hq, hj, hdj, hf⟩ := h.held x hx
      refine ⟨q, j, hq, ⟨hj.1, (hnames j x).mpr hj.2⟩, hdj, fun b' k' => ?_⟩
      simp only [Kernel.goto, Function.update_apply]
      split_ifs
      · simp
      · exact hf b' k'
    · exact ⟨p, i, hcom, ⟨ho, (hnames i x).mpr hn⟩, hd, by simp [Kernel.goto]⟩
  · rw [hcache]
    rcases hc with ⟨rfl, -⟩ | ⟨hv, rfl⟩
    · exact h.shows
    · exact h.shows.fill (fun j hj => h.wf.unique j i b hj hn) hn hv
  · intro u hu
    rw [htxn] at hu
    rw [CrashState.after, htxn, hbefore]
    exact h.logged u hu

theorem store (h : Mirrors s a) (hc : s.committer ≠ some p) {d : Block} {k : Unit → Code Unit}
    (hp : s.pc p = .run (.op (.store b d) k)) (hi : s.Holds p i b) :
    Mirrors { (s.goto p (.run (k ()))).setData i d with
      dirty := Function.update s.dirty i true } a := by
  have hpf : ∀ i b k, s.pc p ≠ .filling i b k := by simp [hp]
  refine ⟨?_, h.disk, h.log, samePhase_goto h.phase hc _, h.busy, ?_, h.shows.store d, h.logged⟩
  · have hgoto := h.wf.goto (d := .run (k ())) (by rw [hp]; rfl) hpf (by simp) (by simp)
    exact (hgoto.set_data id).set_dirty (p := p) (by simp) hi.1 true
  · intro x hx
    obtain ⟨q, j, hq, hqp, hj, hd, hf⟩ := h.held_goto hc (.run (k ())) hx
    have hji : j ≠ i := by
      rintro rfl
      have := hj.1.symm.trans hi.1
      exact hqp (Option.some.inj this)
    refine ⟨q, j, hq, ⟨hj.1, ?_⟩, ?_, hf⟩
    · simpa [Kernel.setData, Kernel.goto, Bcache.Names, hji] using hj.2
    · simpa [hji] using hd

/-- `commit` changes a buffer, writes it, unpins it or releases it; in each case the log machine
does the same to the block. -/
theorem commit_step (h : Mirrors s a) (hinv : CrashInvariant G a) (hc : s.committer = some p)
    {o : Op} {k : interface.Result o → Code Unit} (hp : s.pc p = .run (.op o k)) :
    ∃ r m, interp o a.mem = .ok (r, m) ∧
      (crashes G).Moves a { a with mem := m, phase := .commit (k r) } := by
  have hph := h.commit_phase hc (c := .op o k) (by rw [hp, Pc.rest])
  obtain ⟨r, m, hr⟩ := commit_safe hinv hph
  exact ⟨r, m, hr, commit_run hph hr⟩

theorem held_commit (h : Mirrors s a) (hc : s.committer = some p) (rest : Code Unit) {x : ℕ}
    (hx : a.mem.held x = true) : ∃ i, s.Holds p i x ∧ s.dirty i = false ∧
      ∀ b k, Function.update s.pc p (.run rest) p ≠ .filling i b k := by
  obtain ⟨q, j, hq, hj, hd, -⟩ := h.held x hx
  rw [hc] at hq
  cases hq
  exact ⟨j, hj, hd, by simp⟩

theorem commitStore (h : Mirrors s a) (hinv : CrashInvariant G a) (hc : s.committer = some p)
    {d : Block} {k : Unit → Code Unit} (hp : s.pc p = .run (.op (.store b d) k))
    (hi : s.Holds p i b) :
    ∃ a', (crashes G).Moves a a' ∧ Mirrors ((s.goto p (.run (k ()))).setData i d) a' := by
  obtain ⟨r, m, hr, hrun⟩ := h.commit_step hinv hc hp
  simp only [interp] at hr
  split_ifs at hr with hb
  cases hr
  have hpf : ∀ i b k, s.pc p ≠ .filling i b k := by simp [hp]
  obtain ⟨hu, hv⟩ := h.of_holds hi hpf
  refine ⟨_, hrun, ?_, h.disk, h.log, ?_, h.busy, ?_, h.shows.set hu hi.2 hv d, h.logged⟩
  · have hgoto := h.wf.goto (d := .run (k ())) (by rw [hp]; rfl) hpf (by simp) (by simp)
    exact hgoto.set_data id
  · exact samePhase_commit hc rfl
  · intro x hx
    obtain ⟨j, hj, hd, hf⟩ := h.held_commit hc (k ()) hx
    refine ⟨p, j, hc, ⟨hj.1, ?_⟩, hd, hf⟩
    by_cases hji : j = i
    · subst hji
      simpa [Kernel.setData, Kernel.goto, Bcache.Names] using hj.2
    · simpa [Kernel.setData, Kernel.goto, Bcache.Names, hji] using hj.2

theorem bwrite (h : Mirrors s a) (hinv : CrashInvariant G a) (hc : s.committer = some p)
    {k : Unit → Code Unit} (hp : s.pc p = .run (.op (.bwrite b) k)) (hi : s.Holds p i b) :
    ∃ a', (crashes G).Moves a a' ∧ Mirrors { s.goto p (.run (k ())) with
      disk := Function.update s.disk b (s.bcache.buf i).data } a' := by
  obtain ⟨r, m, hr, hrun⟩ := h.commit_step hinv hc hp
  simp only [interp] at hr
  split_ifs at hr with hb
  cases hr
  have hpf : ∀ i b k, s.pc p ≠ .filling i b k := by simp [hp]
  obtain ⟨hu, hv⟩ := h.of_holds hi hpf
  have hdata : (s.bcache.buf i).data = a.mem.cache b := by
    obtain ⟨j, hj, hd, -⟩ := h.held_commit hc (k ()) hb
    rw [hu j hj.2] at hd
    exact h.shows.content i b hi.2 hv hd
  refine ⟨_, hrun, ?_, ?_, h.log, samePhase_commit hc rfl, h.busy, ?_, h.shows.bwrite hi.2 hv _,
    h.logged⟩
  · exact h.wf.goto (d := .run (k ())) (by rw [hp]; rfl) hpf (by simp) (by simp)
  · simp only [h.disk, hdata]
  · intro x hx
    obtain ⟨j, hj, hd, hf⟩ := h.held_commit hc (k ()) hx
    exact ⟨p, j, hc, hj, hd, hf⟩

theorem bunpin (h : Mirrors s a) (hinv : CrashInvariant G a) (hc : s.committer = some p)
    {k : Unit → Code Unit} (hp : s.pc p = .run (.op (.bunpin b) k)) (hi : s.Holds p i b) :
    ∃ a', (crashes G).Moves a a' ∧ Mirrors { s.goto p (.run (k ())) with
      bcache := s.bcache.bunpin i } a' := by
  obtain ⟨r, m, hr, hrun⟩ := h.commit_step hinv hc hp
  simp only [interp] at hr
  split_ifs at hr with hb
  cases hr
  have hrec : s.bcache.Recounts (s.bcache.bunpin i) := Bcache.recounts_set _ _ _
  refine ⟨_, hrun, ?_, h.disk, h.log, samePhase_commit hc rfl, h.busy, ?_, h.shows.recount hrec,
    h.logged⟩
  · have hgoto := h.wf.goto (d := .run (k ())) (by rw [hp]; rfl) (by simp [hp]) (by simp) (by simp)
    exact hgoto.bunpin hi.2 hb
  · intro x hx
    obtain ⟨j, hj, hd, hf⟩ := h.held_commit hc (k ()) hx
    exact ⟨p, j, hc, ⟨hj.1, hrec.names.mpr hj.2⟩, hd, hf⟩

theorem getLh (h : Mirrors s a) (hinv : CrashInvariant G a) (hc : s.committer = some p)
    {k : List ℕ → Code Unit} (hp : s.pc p = .run (.op .getLh k)) :
    ∃ a', (crashes G).Moves a a' ∧ Mirrors (s.goto p (.run (k s.log.lh))) a' := by
  obtain ⟨r, m, hr, hrun⟩ := h.commit_step hinv hc hp
  cases hr
  rw [h.log] at hrun
  refine ⟨_, hrun, ?_, h.disk, h.log, samePhase_commit hc rfl, h.busy, ?_, h.shows, h.logged⟩
  · exact h.wf.goto (by rw [hp]; rfl) (by simp [hp]) (by simp) (by simp)
  · intro x hx
    obtain ⟨j, hj, hd, hf⟩ := h.held_commit hc (k s.log.lh) hx
    exact ⟨p, j, hc, hj, hd, hf⟩

theorem setLh (h : Mirrors s a) (hinv : CrashInvariant G a) (hc : s.committer = some p)
    {lh : List ℕ} {k : Unit → Code Unit} (hp : s.pc p = .run (.op (.setLh lh) k)) :
    ∃ a', (crashes G).Moves a a' ∧ Mirrors { s.goto p (.run (k ())) with
      log := { s.log with lh := lh } } a' := by
  obtain ⟨r, m, hr, hrun⟩ := h.commit_step hinv hc hp
  cases hr
  refine ⟨_, hrun, ?_, h.disk, ?_, samePhase_commit hc rfl, h.busy, ?_, h.shows, h.logged⟩
  · exact h.wf.goto (by rw [hp]; rfl) (by simp [hp]) (by simp) (by simp)
  · simp only [h.log]
  · intro x hx
    obtain ⟨j, hj, hd, hf⟩ := h.held_commit hc (k ()) hx
    exact ⟨p, j, hc, hj, hd, hf⟩

theorem logWrite (h : Mirrors s a) (hinv : CrashInvariant G a) (hc : s.committer ≠ some p)
    {k : Unit → Code Unit} {l : Log} {pin : Bool} (hp : s.pc p = .run (.op (.logWrite b) k))
    (hi : s.Holds p i b) (hb : G.Home b ∧ b < 2 ^ 32)
    (hw : Log.logWrite s.log b = .ok (l, pin)) :
    ∃ a', (crashes G).Moves a a' ∧ Mirrors { s.goto p (.run (k ())) with
      log := l
      bcache := if pin then s.bcache.bpin i else s.bcache
      dirty := Function.update s.dirty i false
      logged := Function.update s.logged b (s.bcache.buf i).data } a' := by
  have hnone : s.committer = none := by
    by_contra hcom
    obtain ⟨-, hout⟩ := h.busy hcom
    unfold Log.logWrite at hw
    split_ifs at hw <;> omega
  have hph := h.running hnone
  have hpf : ∀ i b k, s.pc p ≠ .filling i b k := by simp [hp]
  obtain ⟨hu, hv⟩ := h.of_holds hi hpf
  have hrun : (crashes G).Moves a _ := Or.inr (.write b (s.bcache.buf i).data l pin hph hb.1 hb.2
    (by rw [h.log]; exact hw))
  obtain ⟨-, -, hl, hpin⟩ := logWrite_ok hw
  have hpins : (pin = true → a.mem.pins b = false) := by
    intro hpt
    unfold CrashInvariant at hinv
    simp only [hph] at hinv
    rw [hinv.1.not_pinned, h.log]
    simpa [hpt] using hpin.symm
  refine ⟨_, hrun, ?_, h.disk, rfl, samePhase_goto h.phase hc _, ?_, ?_, ?_, ?_⟩
  · have hgoto := h.wf.goto (d := .run (k ())) (by rw [hp]; rfl) hpf (by simp) (by simp)
    have hdirty := hgoto.set_dirty (p := p) (by simp) hi.1 false
    cases pin with
    | false => exact hdirty
    | true => exact hdirty.bpin hi.2 (hpins rfl)
  · exact fun hcom => absurd hnone hcom
  · intro x hx
    obtain ⟨q, -, hq, -⟩ := h.held x hx
    rw [hnone] at hq
    cases hq
  · have hrec := h.shows.record hu hi.2 hv
    cases pin with
    | false => exact hrec
    | true => exact hrec.recount (Bcache.recounts_set _ _ _)
  · intro u hu'
    rw [CrashState.after, Log.apply, List.foldl_append]
    simp only [List.foldl_cons, List.foldl_nil]
    by_cases hub : u.1 = b
    · simp [hub]
    · have hu'' : u ∈ a.txn := by
        rcases List.mem_append.mp hu' with h' | h'
        · exact h'
        · rw [List.mem_singleton.mp h'] at hub
          exact absurd rfl hub
      simpa [CrashState.after, Log.apply, hub] using h.logged u hu''

theorem releasesleep (h : Mirrors s a) (hinv : CrashInvariant G a) {k : Unit → Code Unit}
    (hp : s.pc p = .run (.op (.brelse b) k)) (hi : s.Holds p i b) (hd : s.dirty i = false) :
    ∃ a', (crashes G).Moves a a' ∧ Mirrors { s.goto p (.releasing i (k ())) with
      owner := Function.update s.owner i none
      dirty := Function.update s.dirty i false
      leaked := s.leaked || s.dirty i } a' := by
  have hpf : ∀ i b k, s.pc p ≠ .filling i b k := by simp [hp]
  have hwf := h.wf.releasesleep (k ()) (by rw [hp]; rfl) hpf hi.1
  by_cases hc : s.committer = some p
  · obtain ⟨r, m, hr, hrun⟩ := h.commit_step hinv hc hp
    simp only [interp] at hr
    split_ifs at hr with hb
    cases hr
    refine ⟨_, hrun, hwf, h.disk, h.log, samePhase_commit hc rfl, h.busy, ?_, h.shows.release hd,
      h.logged⟩
    intro x hx
    have hxb : x ≠ b := by
      rintro rfl
      simp at hx
    obtain ⟨j, hj, hdj, -⟩ := h.held_commit hc (k ()) (by simpa [hxb] using hx)
    have hji : j ≠ i := by
      rintro rfl
      exact hxb (hj.2.2.symm.trans hi.2.2)
    exact ⟨p, j, hc, ⟨by simpa [Kernel.goto, hji] using hj.1, hj.2⟩, by simpa [hji] using hdj,
      by simp [Kernel.goto]⟩
  · refine ⟨a, Or.inl rfl, hwf, h.disk, h.log, samePhase_goto h.phase hc _, h.busy, ?_,
      h.shows.release hd, h.logged⟩
    intro x hx
    obtain ⟨q, j, hq, hqp, hj, hdj, hf⟩ := h.held_goto hc (.releasing i (k ())) hx
    have hji : j ≠ i := by
      rintro rfl
      exact hqp (Option.some.inj (hj.1.symm.trans hi.1))
    exact ⟨q, j, hq, ⟨by simpa [Kernel.goto, hji] using hj.1, hj.2⟩, by simpa [hji] using hdj, hf⟩

theorem brelse (h : Mirrors s a) {rest : Code Unit} (hp : s.pc p = .releasing i rest) :
    Mirrors { s.goto p (.run rest) with bcache := s.bcache.brelse i } a := by
  have hrec := Bcache.recounts_brelse s.bcache i
  refine ⟨h.wf.brelse hp, h.disk, h.log, samePhase_rest h.phase (by rw [hp, Pc.rest, Pc.rest]),
    h.busy, ?_, h.shows.recount hrec, h.logged⟩
  intro x hx
  obtain ⟨q, j, hq, hj, hd, hf⟩ := h.held x hx
  refine ⟨q, j, hq, ⟨hj.1, hrec.names.mpr hj.2⟩, hd, fun b k => ?_⟩
  simp only [Kernel.goto, Function.update_apply]
  split_ifs
  · simp
  · exact hf b k

end Mirrors

/-- Every step of the processes is at most one step of the log machine, unless a buffer is released
with a change that was not recorded. -/
theorem Mirrors.step (h : Mirrors s a) (hinv : CrashInvariant G a) (hst : Step G client s t)
    (hleak : t.leaked = false) : ∃ a', (crashes G).Moves a a' ∧ Mirrors t a' := by
  have hidle := h.not_committing
  cases hst with
  | beginOp p hp hw =>
    have hc : s.committer = none := hidle (by
      rw [← Bool.not_eq_true]
      intro hcom
      rw [mustWait_iff.mpr (Or.inl hcom)] at hw
      exact absurd hw (by decide))
    exact ⟨_, Or.inr (.beginOp (h.running hc) (by rw [h.log]; exact hw)), by
      rw [h.log]; exact h.set_outstanding hc _⟩
  | endOp p l hp he =>
    obtain ⟨hcom, -, hl⟩ := endOp_ok he
    have hc := hidle hcom
    refine ⟨_, Or.inr (.endOp l (h.running hc) (by rw [h.log]; exact he)), ?_⟩
    rw [hl, ← hcom]
    exact h.set_outstanding hc (s.log.outstanding - 1)
  | endLast p l hp he =>
    obtain ⟨hcom, hlast, hl⟩ := endOp_ok he
    have hc := hidle hcom
    refine ⟨_, Or.inr (.endLast l (h.running hc) (by rw [h.log]; exact he)), ?_⟩
    have := h.endLast hinv hc hp
    rw [h.log] at this
    rw [hl, hlast.mp rfl]
    exact this
  | endPanic p msg hp he =>
    exact ⟨a, Or.inl rfl, h.wf, h.disk, h.log, h.phase, h.busy, h.held, h.shows, h.logged⟩
  | committed p hp hc =>
    have hph := h.commit_phase hc (c := .ret ()) (by rw [hp, Pc.rest])
    exact ⟨_, Or.inr (.committed hph), h.committed hinv hc hp⟩
  | call p prog hp hcl =>
    have hc : s.committer ≠ some p := by
      intro hc
      obtain ⟨c, hr, -⟩ : ∃ c, (s.pc p).rest = some c ∧ a.phase = .commit c := by
        simpa [SamePhase, hc] using h.phase
      simp [hp, Pc.rest] at hr
    exact ⟨a, Or.inl rfl, h.goto hc (by rw [hp]; rfl) (by simp [hp]) (by simp) (by simp)⟩
  | ret p hp hc =>
    exact ⟨a, Or.inl rfl, h.goto hc (by rw [hp]; rfl) (by simp [hp]) (by simp) (by simp)⟩
  | bget p b k i c hp hg => exact ⟨a, Or.inl rfl, h.bget hinv hp hg⟩
  | bgetPanic p b k msg hp hg =>
    exact ⟨a, Or.inl rfl, h.wf, h.disk, h.log, h.phase, h.busy, h.held, h.shows, h.logged⟩
  | acquiresleep p i b k hp ho => exact ⟨a, Or.inl rfl, h.acquiresleep hp ho⟩
  | breadValid p i b k hp hv =>
    have hdata := h.bread_data hp
    rw [if_pos hv] at hdata
    rw [hdata]
    exact h.bread hinv hp (Or.inl ⟨rfl, hv⟩)
  | breadDisk p i b k hp hv =>
    have hdata := h.bread_data hp
    rw [hv] at hdata
    simp only [Bool.false_eq_true, if_false] at hdata
    obtain ⟨a', hrun, ha'⟩ := h.bread hinv hp (Or.inr ⟨hv, rfl⟩)
    rw [← hdata] at ha'
    exact ⟨a', hrun, ha'⟩
  | store p b c k i hp hc hi hb => exact ⟨a, Or.inl rfl, h.store hc hp hi⟩
  | commitStore p b c k i hp hc hi => exact h.commitStore hinv hc hp hi
  | bwrite p b k i hp hc hi => exact h.bwrite hinv hc hp hi
  | logWrite p b k i l pin hp hc hi hb hw => exact h.logWrite hinv hc hp hi hb hw
  | logWritePanic p b k msg hp hw =>
    exact ⟨a, Or.inl rfl, h.wf, h.disk, h.log, h.phase, h.busy, h.held, h.shows, h.logged⟩
  | bunpin p b k i hp hc hi => exact h.bunpin hinv hc hp hi
  | releasesleep p b k i hp hi =>
    have hd : s.dirty i = false := by
      simp only [Bool.or_eq_false_iff] at hleak
      exact hleak.2
    exact h.releasesleep hinv hp hi hd
  | brelsePanic p b k hp hi =>
    exact ⟨a, Or.inl rfl, h.wf, h.disk, h.log, h.phase, h.busy, h.held, h.shows, h.logged⟩
  | brelse p i rest hp => exact ⟨a, Or.inl rfl, h.brelse hp⟩
  | getLh p k hp hc => exact h.getLh hinv hc hp
  | setLh p lh k hp hc => exact h.setLh hinv hc hp
  | panic p msg k hp =>
    exact ⟨a, Or.inl rfl, h.wf, h.disk, h.log, h.phase, h.busy, h.held, h.shows, h.logged⟩

end Xv6.Bio
