import Xv6.Bio.Discipline

/-! The contents of blocks as the cache shows them, which change only where an operation writes to
a buffer: evicting a block and reading it again goes unnoticed. -/
namespace Xv6.Bio

open Lib Log

section View

variable {c c' : Bcache} {disk : Disk} {i : Fin nbuf} {b : ℕ}

/-- What `bread` of a block would return. -/
def Bcache.view (c : Bcache) (disk : Disk) (b : ℕ) : Block :=
  match (List.finRange nbuf).find? fun i => decide (c.Names i rootDev b) && (c.buf i).valid with
  | some i => (c.buf i).data
  | none => disk b

theorem Bcache.view_of_valid (hu : ∀ j, c.Names j rootDev b → j = i) (hn : c.Names i rootDev b)
    (hv : (c.buf i).valid = true) : c.view disk b = (c.buf i).data := by
  unfold view
  split
  · next j hj =>
    have := List.find?_some hj
    simp only [Bool.and_eq_true, decide_eq_true_eq] at this
    rw [hu j this.1]
  · next hnone =>
    rw [List.find?_eq_none] at hnone
    exact absurd (hnone i (List.mem_finRange i)) (by simp [hn, hv])

theorem Bcache.view_of_invalid (h : ∀ i, c.Names i rootDev b → (c.buf i).valid = false) :
    c.view disk b = disk b := by
  unfold view
  split
  · next j hj =>
    have := List.find?_some hj
    simp only [Bool.and_eq_true, decide_eq_true_eq] at this
    rw [h j this.1] at this
    exact absurd this.2 (by decide)
  · rfl

theorem Bcache.view_congr {disk' : Disk}
    (h : ∀ i, c.Names i rootDev b ∨ c'.Names i rootDev b →
      ∃ r, c'.buf i = { c.buf i with refcnt := r })
    (hd : disk' b = disk b) : c'.view disk' b = c.view disk b := by
  have hiff : ∀ i, (decide (c'.Names i rootDev b) && (c'.buf i).valid) =
      (decide (c.Names i rootDev b) && (c.buf i).valid) := by
    intro i
    by_cases hi : c.Names i rootDev b ∨ c'.Names i rootDev b
    · obtain ⟨r, hr⟩ := h i hi
      have hn : c'.Names i rootDev b ↔ c.Names i rootDev b := by simp [Names, hr]
      rw [decide_eq_decide.mpr hn, hr]
    · rw [not_or] at hi
      simp [hi.1, hi.2]
  unfold view
  simp only [hiff]
  split
  · next j hj =>
    have := List.find?_some hj
    simp only [Bool.and_eq_true, decide_eq_true_eq] at this
    obtain ⟨r, hr⟩ := h j (Or.inl this.1)
    rw [hr]
  · exact hd

theorem Bcache.Recounts.view (h : c.Recounts c') : c'.view disk b = c.view disk b :=
  Bcache.view_congr (fun i _ => h i) rfl

theorem Bcache.view_set_of_ne {buf : Buf} (hn : ¬c.Names i rootDev b)
    (hn' : ¬(c.set i buf).Names i rootDev b) : (c.set i buf).view disk b = c.view disk b := by
  apply view_congr _ rfl
  intro j hj
  have hji : j ≠ i := by
    rintro rfl
    exact hj.elim hn hn'
  exact ⟨(c.buf j).refcnt, by simp [hji]⟩

end View

variable {N : ℕ} {G : Geometry} {client : Code Unit → Prop} {s t : Kernel N} {a : CrashState}

def Kernel.view (s : Kernel N) : Disk := s.bcache.view s.disk

namespace Mirrors

variable {p : Fin N} {i : Fin nbuf} {b : ℕ}

theorem bread_view (h : Mirrors s a) {k : Block → Code Unit} (hp : s.pc p = .filling i b k) :
    (if (s.bcache.buf i).valid then (s.bcache.buf i).data else s.disk b) = s.view b := by
  obtain ⟨-, hn, -⟩ := h.wf.filling p i b k hp
  have hu : ∀ j, s.bcache.Names j rootDev b → j = i := fun j hj => h.wf.unique j i b hj hn
  unfold Kernel.view
  split_ifs with hv
  · rw [Bcache.view_of_valid hu hn hv]
  · rw [Bcache.view_of_invalid]
    intro j hj
    rw [hu j hj]
    simpa using hv

theorem listed_of_pins (h : Mirrors s a) (hinv : CrashInvariant G a) (hb : a.mem.pins b = true) :
    b ∈ s.log.lh := by
  rw [← h.log]
  unfold CrashInvariant at hinv
  split at hinv
  · exact (hinv.1.pins b).mp hb
  · exact hinv.now.pinned b hb
  · next c hc => exact absurd hc (h.not_recover c)

theorem transparent (h : Mirrors s a) (hinv : CrashInvariant G a) (hn : s.bcache.Names i rootDev b)
    (hv : (s.bcache.buf i).valid = true) (ho : s.owner i = none) (hb : b ∉ s.log.lh) :
    (s.bcache.buf i).data = s.disk b := by
  have hpin : a.mem.pins b = false := by
    rw [← Bool.not_eq_true]
    exact fun hpin => hb (h.listed_of_pins hinv hpin)
  have hd : s.dirty i = false := by
    rw [← Bool.not_eq_true]
    exact fun hd => h.wf.dirty i hd ho
  rw [h.shows.content i b hn hv hd, h.coherent hinv hn ho hpin]

theorem view_bget (h : Mirrors s a) (hinv : CrashInvariant G a) {x : ℕ} {c : Bcache}
    (hg : s.bcache.bget rootDev x = .ok (i, c)) : c.view s.disk b = s.view b := by
  rcases Bcache.bget_ok hg with ⟨-, rfl⟩ | ⟨hnone, h0, rfl⟩
  · exact (Bcache.recounts_set _ _ _).view
  obtain ⟨ho, -, hpin⟩ := h.wf.free h0
  have hni : ∀ j, ¬s.bcache.Names j rootDev x := fun j => hnone j (h.wf.lru j)
  by_cases hbx : b = x
  · subst hbx
    unfold Kernel.view
    rw [Bcache.view_of_invalid, Bcache.view_of_invalid fun j hj => absurd hj (hni j)]
    intro j hj
    by_cases hji : j = i
    · simp [hji]
    · exact absurd (by simpa [Bcache.Names, hji] using hj) (hni j)
  by_cases hn : s.bcache.Names i rootDev b
  · -- the block that loses its buffer
    have hu : ∀ j, s.bcache.Names j rootDev b → j = i := fun j hj => h.wf.unique j i b hj hn
    rw [Bcache.view_of_invalid]
    · unfold Kernel.view
      by_cases hv : (s.bcache.buf i).valid = true
      · have hd : s.dirty i = false := by
          rw [← Bool.not_eq_true]
          exact fun hd => h.wf.dirty i hd ho
        rw [Bcache.view_of_valid hu hn hv, h.shows.content i b hn hv hd,
          h.coherent hinv hn ho (hn.2 ▸ hpin hn.1)]
      · rw [Bcache.view_of_invalid]
        intro j hj
        rw [hu j hj]
        simpa using hv
    · intro j hj
      by_cases hji : j = i
      · simp [hji]
      · exact absurd (hu j (by simpa [Bcache.Names, hji] using hj)) hji
  · refine Bcache.view_set_of_ne hn ?_
    simp [Bcache.Names, Ne.symm hbx]

theorem view_store (h : Mirrors s a) (hi : s.Holds p i b) (hp : ∀ i b k, s.pc p ≠ .filling i b k)
    (c : Block) (x : ℕ) :
    (s.bcache.set i { s.bcache.buf i with data := c }).view s.disk x =
      if x = b then c else s.view x := by
  obtain ⟨hu, hv⟩ := h.of_holds hi hp
  split_ifs with hx
  · subst hx
    rw [Bcache.view_of_valid (i := i)]
    · simp
    · intro j hj
      exact hu j (names_fill.mp hj)
    · exact names_fill.mpr hi.2
    · simpa using hv
  · have hn : ¬s.bcache.Names i rootDev x := fun hn => hx (hn.2.symm.trans hi.2.2)
    exact Bcache.view_set_of_ne hn fun hn' => hn (names_fill.mp hn')

theorem view_commitStore (h : Mirrors s a) (hinv : CrashInvariant G a) (hc : s.committer = some p)
    {c : Block} {k : Unit → Code Unit} (hp : s.pc p = .run (.op (.store b c) k))
    (hi : s.Holds p i b) (hb : G.Home b) : s.view b = c := by
  have hph := h.commit_phase hc (c := .op (.store b c) k) (by rw [hp, Pc.rest])
  obtain ⟨r, m, hr⟩ := commit_safe hinv hph
  have hinv' : CrashInvariant G { a with mem := m, phase := .commit (k r) } :=
    hinv.step (.commit _ _ _ hph (.op hr))
  unfold CrashInvariant at hinv hinv'
  simp only [hph] at hinv hinv'
  have hold := hinv.now.view b hb
  have hnew := hinv'.now.view b hb
  simp only [interp] at hr
  split_ifs at hr with hheld
  cases hr
  simp only [Function.update_self] at hnew
  obtain ⟨q, j, -, hj, hd, -⟩ := h.held b hheld
  have hji : j = i := h.wf.unique j i b hj.2 hi.2
  obtain ⟨hu, hv⟩ := h.of_holds hi (by simp [hp])
  unfold Kernel.view
  rw [Bcache.view_of_valid hu hi.2 hv, h.shows.content i b hi.2 hv (hji ▸ hd), hold, hnew]
  rfl

theorem view_bwrite (h : Mirrors s a) (hi : s.Holds p i b) (hp : ∀ i b k, s.pc p ≠ .filling i b k)
    (c : Block) (x : ℕ) : s.bcache.view (Function.update s.disk b c) x = s.view x := by
  by_cases hx : x = b
  · subst hx
    obtain ⟨hu, hv⟩ := h.of_holds hi hp
    unfold Kernel.view
    rw [Bcache.view_of_valid hu hi.2 hv, Bcache.view_of_valid hu hi.2 hv]
  · apply Bcache.view_congr
    · intro j _
      exact ⟨(s.bcache.buf j).refcnt, rfl⟩
    · rw [Function.update_of_ne hx]

theorem view_fill (h : Mirrors s a) {k : Block → Code Unit} (hp : s.pc p = .filling i b k)
    (hv : (s.bcache.buf i).valid = false) (x : ℕ) :
    (s.bcache.set i { s.bcache.buf i with valid := true, data := s.disk b }).view s.disk x =
      s.view x := by
  obtain ⟨-, hn, -⟩ := h.wf.filling p i b k hp
  have hu : ∀ j, s.bcache.Names j rootDev b → j = i := fun j hj => h.wf.unique j i b hj hn
  by_cases hx : x = b
  · subst hx
    rw [Bcache.view_of_valid (i := i)]
    · unfold Kernel.view
      rw [Bcache.view_of_invalid fun j hj => by rw [hu j hj, hv]]
      simp
    · intro j hj
      exact hu j (names_fill.mp hj)
    · exact names_fill.mpr hn
    · simp
  · have hn' : ¬s.bcache.Names i rootDev x := fun hn' => hx (hn'.2.symm.trans hn.2)
    exact Bcache.view_set_of_ne hn' fun h' => hn' (names_fill.mp h')

/-- A home block shows something else only after an operation has written to its buffer. -/
theorem view_step (h : Mirrors s a) (hinv : CrashInvariant G a) (hst : Step G client s t)
    (hb : G.Home b) :
    t.view b = s.view b ∨ ∃ p c k, s.committer ≠ some p ∧
      s.pc p = .run (.op (.store b c) k) ∧ t.view b = c := by
  cases hst with
  | bget p x k i c hp hg => exact Or.inl (h.view_bget hinv hg)
  | breadDisk p i x k hp hv => exact Or.inl (h.view_fill hp hv b)
  | store p x c k i hp hc hi hx =>
    have hview := h.view_store hi (by simp [hp]) c b
    by_cases hbx : b = x
    · subst hbx
      rw [if_pos rfl] at hview
      exact Or.inr ⟨p, c, k, hc, hp, hview⟩
    · rw [if_neg hbx] at hview
      exact Or.inl hview
  | commitStore p x c k i hp hc hi =>
    left
    have hview := h.view_store hi (by simp [hp]) c b
    by_cases hbx : b = x
    · subst hbx
      rw [if_pos rfl] at hview
      exact hview.trans (h.view_commitStore hinv hc hp hi hb).symm
    · rw [if_neg hbx] at hview
      exact hview
  | bwrite p x k i hp hc hi => exact Or.inl (h.view_bwrite hi (by simp [hp]) _ b)
  | logWrite p x k i l pin hp hc hi hx hw =>
    left
    show Bcache.view (if pin then s.bcache.bpin i else s.bcache) s.disk b = s.view b
    split_ifs
    · exact (Bcache.recounts_set _ _ _).view
    · rfl
  | bunpin p x k i hp hc hi => exact Or.inl (Bcache.recounts_set _ _ _).view
  | brelse p i rest hp => exact Or.inl (Bcache.recounts_brelse _ _).view
  | _ => exact Or.inl rfl

end Mirrors

end Xv6.Bio
