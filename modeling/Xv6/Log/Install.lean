import Xv6.Log.Machine

/-! What the loops of `write_log` and `install_trans` and the header writes do to the memory, with
a condition `K` on the disk and `log.lh` and a condition `V` on the contents in memory kept at
every point in between. -/
namespace Xv6.Log

open Bio Lib

section Rules

variable {C : Mem → Prop} {α : Type} {m : Mem} {b : ℕ} {Q : α → Mem → Prop}

theorem holds_bread {k : Block → Code α} (hC : C m) (hb : m.held b = false)
    (h : (k (m.cache b)).Holds interp.semantics C Q
      { m with held := Function.update m.held b true }) :
    (bread b >>= k).Holds interp.semantics C Q m :=
  .call hC (by simp [interp, hb]) h

theorem holds_store {k : Unit → Code α} {c : Block} (hC : C m) (hb : m.held b = true)
    (h : (k ()).Holds interp.semantics C Q { m with cache := Function.update m.cache b c }) :
    (store b c >>= k).Holds interp.semantics C Q m :=
  .call hC (by simp [interp, hb]) h

theorem holds_bwrite {k : Unit → Code α} (hC : C m) (hb : m.held b = true)
    (h : (k ()).Holds interp.semantics C Q
      { m with disk := Function.update m.disk b (m.cache b) }) :
    (bwrite b >>= k).Holds interp.semantics C Q m :=
  .call hC (by simp [interp, hb]) h

theorem holds_brelse {k : Unit → Code α} (hC : C m) (hb : m.held b = true)
    (h : (k ()).Holds interp.semantics C Q { m with held := Function.update m.held b false }) :
    (brelse b >>= k).Holds interp.semantics C Q m :=
  .call hC (by simp [interp, hb]) h

theorem holds_bunpin {k : Unit → Code α} (hC : C m) (hb : m.pins b = true)
    (h : (k ()).Holds interp.semantics C Q { m with pins := Function.update m.pins b false }) :
    (bunpin b >>= k).Holds interp.semantics C Q m :=
  .call hC (by simp [interp, hb]) h

theorem holds_getLh {k : List ℕ → Code α} (hC : C m)
    (h : (k m.log.lh).Holds interp.semantics C Q m) :
    (getLh >>= k).Holds interp.semantics C Q m :=
  .call hC rfl h

theorem holds_setLh {k : Unit → Code α} {lh : List ℕ} (hC : C m)
    (h : (k ()).Holds interp.semantics C Q { m with log := { m.log with lh := lh } }) :
    (setLh lh >>= k).Holds interp.semantics C Q m :=
  .call hC rfl h

end Rules

variable {G : Geometry} {K : Disk → List ℕ → Prop} {V : Disk → Prop} {m : Mem}
  {Q : Unit → Mem → Prop}

/-- Only buffers that are locked or pinned may differ from the disk, and pins are for listed
blocks. -/
structure Intact (K : Disk → List ℕ → Prop) (V : Disk → Prop) (m : Mem) : Prop where
  disk : K m.disk m.log.lh
  view : V m.cache
  coherent : ∀ b, m.held b = false → m.pins b = false → m.cache b = m.disk b
  pinned : ∀ b, m.pins b = true → b ∈ m.log.lh

/-- No buffer is locked by the process in `commit`. -/
structure AtRest (m : Mem) : Prop where
  held : ∀ b, m.held b = false
  coherent : ∀ b, m.pins b = false → m.cache b = m.disk b
  pinned : ∀ b, m.pins b = true → b ∈ m.log.lh

theorem AtRest.intact (h : AtRest m) (hK : K m.disk m.log.lh) (hV : V m.cache) : Intact K V m :=
  ⟨hK, hV, fun b _ => h.coherent b, h.pinned⟩

theorem AtRest.intact_held (h : AtRest m) (hK : K m.disk m.log.lh) {cache : Disk} (hV : V cache)
    {held : ℕ → Bool} (hc : ∀ b, held b = false → cache b = m.cache b) :
    Intact K V { m with cache := cache, held := held } :=
  ⟨hK, hV, fun b hb hp => (hc b hb).trans (h.coherent b hp), h.pinned⟩

/-- The memory after `src` has been copied over `dst` and `dst` been written to the disk. -/
def Mem.copied (m : Mem) (dst src : ℕ) : Mem :=
  { m with
    cache := Function.update m.cache dst (m.cache src)
    disk := Function.update m.disk dst (m.cache src) }

@[simp] theorem Mem.copied_log (dst src : ℕ) : (m.copied dst src).log = m.log := rfl

@[simp] theorem Mem.copied_held (dst src : ℕ) : (m.copied dst src).held = m.held := rfl

@[simp] theorem Mem.copied_pins (dst src : ℕ) : (m.copied dst src).pins = m.pins := rfl

theorem AtRest.copied (h : AtRest m) (dst src : ℕ) : AtRest (m.copied dst src) := by
  refine ⟨h.held, fun b hp => ?_, h.pinned⟩
  have := h.coherent b hp
  simp only [Mem.copied, Function.update_apply, this]

def Mem.unpinned (m : Mem) (recovering : Bool) (b : ℕ) : Mem :=
  if recovering then m else { m with pins := Function.update m.pins b false }

@[simp] theorem Mem.unpinned_disk (recovering : Bool) (b : ℕ) :
    (m.unpinned recovering b).disk = m.disk := by
  cases recovering <;> rfl

@[simp] theorem Mem.unpinned_cache (recovering : Bool) (b : ℕ) :
    (m.unpinned recovering b).cache = m.cache := by
  cases recovering <;> rfl

@[simp] theorem Mem.unpinned_log (recovering : Bool) (b : ℕ) :
    (m.unpinned recovering b).log = m.log := by
  cases recovering <;> rfl

theorem AtRest.unpinned (h : AtRest m) (recovering : Bool) {b : ℕ} (hb : m.cache b = m.disk b) :
    AtRest (m.unpinned recovering b) := by
  cases recovering with
  | true => exact h
  | false =>
    refine ⟨h.held, fun x hp => ?_, fun x hp => ?_⟩
    · by_cases hx : x = b
      · exact hx ▸ hb
      · exact h.coherent x (by simpa [Mem.unpinned, hx] using hp)
    · by_cases hx : x = b
      · simp [Mem.unpinned, hx] at hp
      · exact h.pinned x (by simpa [Mem.unpinned, hx] using hp)

theorem update_pair {a b : ℕ} {held : ℕ → Bool} (h : ∀ x, held x = false) (c d : ℕ)
    (hcd : c = a ∧ d = b ∨ c = b ∧ d = a) :
    Function.update (Function.update (Function.update (Function.update held a true) b true) c false)
      d false = held := by
  funext x
  simp only [Function.update_apply]
  split_ifs <;> grind

theorem holds_writeLog_step {dst src : ℕ} {rest : Code Unit} (hne : dst ≠ src) (hm : AtRest m)
    (h₀ : K m.disk m.log.lh) (h₁ : K (m.copied dst src).disk m.log.lh)
    (hv₀ : V m.cache) (hv₁ : V (m.copied dst src).cache)
    (h : rest.Holds interp.semantics (Intact K V) Q (m.copied dst src)) :
    Prog.Holds interp.semantics (Intact K V) (do
      let _ ← bread dst
      let «from» ← bread src
      store dst «from»
      bwrite dst
      brelse src
      brelse dst
      rest) Q m := by
  have hend := hm.copied dst src
  change V (Function.update m.cache dst (m.cache src)) at hv₁
  apply holds_bread (hm.intact h₀ hv₀) (hm.held dst)
  apply holds_bread (hm.intact_held h₀ hv₀ fun _ _ => rfl) (by simp [hm.held, hne.symm])
  apply holds_store (hm.intact_held h₀ hv₀ fun _ _ => rfl) (by simp [hne])
  apply holds_bwrite (hm.intact_held h₀ hv₁ fun b hb => ?_) (by simp [hne])
  · simp only [Function.update_self]
    apply holds_brelse (hend.intact_held h₁ hv₁ fun _ _ => rfl) (by simp)
    apply holds_brelse (hend.intact_held h₁ hv₁ fun _ _ => rfl) (by simp [hne])
    rw [update_pair hm.held src dst (by simp)]
    exact h
  · have hb' : b ≠ dst := by
      rintro rfl
      simp [hne] at hb
    simp [hb']

theorem holds_installTrans_step (recovering : Bool) (dst src : ℕ) {rest : Code Unit}
    (hne : dst ≠ src) (hm : AtRest m) (hpin : recovering = false → m.pins dst = true)
    (h₀ : K m.disk m.log.lh) (h₁ : K (m.copied dst src).disk m.log.lh)
    (hv₀ : V m.cache) (hv₁ : V (m.copied dst src).cache)
    (h : rest.Holds interp.semantics (Intact K V) Q ((m.copied dst src).unpinned recovering dst)) :
    Prog.Holds interp.semantics (Intact K V) (do
      let lbuf ← bread src
      let _ ← bread dst
      store dst lbuf
      bwrite dst
      if recovering = false then bunpin dst
      brelse src
      brelse dst
      rest) Q m := by
  have hcopied := hm.copied dst src
  have hend : AtRest ((m.copied dst src).unpinned recovering dst) :=
    hcopied.unpinned recovering (by simp [Mem.copied])
  change V (Function.update m.cache dst (m.cache src)) at hv₁
  apply holds_bread (hm.intact h₀ hv₀) (hm.held src)
  apply holds_bread (hm.intact_held h₀ hv₀ fun _ _ => rfl) (by simp [hm.held, hne])
  apply holds_store (hm.intact_held h₀ hv₀ fun _ _ => rfl) (by simp)
  apply holds_bwrite (hm.intact_held h₀ hv₁ fun b hb => ?_) (by simp)
  · simp only [Function.update_self]
    have hrel : Prog.Holds interp.semantics (Intact K V) (do brelse src; brelse dst; rest) Q
        { (m.copied dst src).unpinned recovering dst with
          held := Function.update (Function.update m.held src true) dst true } := by
      have hv : V ((m.copied dst src).unpinned recovering dst).cache := by
        rwa [Mem.unpinned_cache]
      apply holds_brelse (hend.intact_held (by simpa using h₁) hv fun _ _ => rfl)
        (by simp [hne.symm])
      apply holds_brelse (hend.intact_held (by simpa using h₁) hv fun _ _ => rfl) (by simp [hne])
      rw [update_pair hm.held src dst (by simp)]
      cases recovering with
      | false => exact h
      | true => exact h
    cases recovering with
    | false => exact holds_bunpin (hcopied.intact_held h₁ hv₁ fun _ _ => rfl) (hpin rfl) hrel
    | true => exact hrel
  · have hb' : b ≠ dst := by
      rintro rfl
      simp at hb
    simp [hb']

theorem holds_writeHead {rest : Code Unit} {c : Block} (hm : AtRest m)
    (hc : c = writeHeader m.log.lh (m.cache G.start)) (h₀ : K m.disk m.log.lh)
    (h₁ : K (Function.update m.disk G.start c) m.log.lh) (hv₀ : V m.cache)
    (hv₁ : V (Function.update m.cache G.start c))
    (h : rest.Holds interp.semantics (Intact K V) Q
      { m with
        cache := Function.update m.cache G.start c
        disk := Function.update m.disk G.start c }) :
    (writeHead G >>= fun _ => rest).Holds interp.semantics (Intact K V) Q m := by
  have hcoh : ∀ b, m.pins b = false →
      Function.update m.cache G.start c b = Function.update m.disk G.start c b := by
    intro b hp
    have := hm.coherent b hp
    simp only [Function.update_apply, this]
  subst hc
  unfold writeHead
  simp only [Prog.bind_assoc]
  apply holds_bread (hm.intact h₀ hv₀) (hm.held _)
  apply holds_getLh (hm.intact_held h₀ hv₀ fun _ _ => rfl)
  apply holds_store (hm.intact_held h₀ hv₀ fun _ _ => rfl) (by simp)
  apply holds_bwrite (hm.intact_held h₀ hv₁ fun b hb => ?_) (by simp)
  · simp only [Function.update_self]
    apply holds_brelse ⟨h₁, hv₁, fun b _ => hcoh b, hm.pinned⟩ (by simp)
    simp only [Function.update_idem]
    rw [show Function.update m.held G.start false = m.held by
      rw [← hm.held G.start, Function.update_eq_self]]
    exact h
  · have hb' : b ≠ G.start := by
      rintro rfl
      simp at hb
    simp [hb']

def wroteLog (G : Geometry) : ℕ → List ℕ → Mem → Mem
  | _, [], m => m
  | tail, b :: lh, m => wroteLog G (tail + 1) lh (m.copied (G.start + tail + 1) b)

def installed (G : Geometry) (recovering : Bool) : ℕ → List ℕ → Mem → Mem
  | _, [], m => m
  | tail, b :: lh, m =>
    installed G recovering (tail + 1) lh ((m.copied b (G.start + tail + 1)).unpinned recovering b)

theorem holds_writeLogFrom {rest : Code Unit} (tail : ℕ) (lh : List ℕ) (hhome : ∀ b ∈ lh, G.Home b)
    (hfits : tail + lh.length + 1 ≤ G.size) (hm : AtRest m)
    (hK : ∀ i, K (wroteLog G tail (lh.take i) m).disk m.log.lh)
    (hV : ∀ i, V (wroteLog G tail (lh.take i) m).cache)
    (h : rest.Holds interp.semantics (Intact K V) Q (wroteLog G tail lh m)) :
    (writeLogFrom G tail lh >>= fun _ => rest).Holds interp.semantics (Intact K V) Q m := by
  induction lh generalizing tail m with
  | nil => exact h
  | cons b lh ih =>
    simp only [List.length_cons] at hfits
    have hb : G.Home b := hhome b List.mem_cons_self
    rw [writeLogFrom]
    simp only [Prog.bind_assoc]
    apply holds_writeLog_step (by unfold Geometry.Home at hb; omega) hm (hK 0) (hK 1) (hV 0) (hV 1)
    exact ih (tail + 1) (fun x hx => hhome x (List.mem_cons_of_mem b hx)) (by omega)
      (hm.copied _ _) (fun i => hK (i + 1)) (fun i => hV (i + 1)) h

theorem holds_installTransFrom {rest : Code Unit} (recovering : Bool) (tail : ℕ) (lh : List ℕ)
    (hhome : ∀ b ∈ lh, G.Home b) (hfits : tail + lh.length + 1 ≤ G.size) (hm : AtRest m)
    (hpin : recovering = false → lh.Nodup ∧ ∀ b ∈ lh, m.pins b = true)
    (hK : ∀ i, K (installed G recovering tail (lh.take i) m).disk m.log.lh)
    (hV : ∀ i, V (installed G recovering tail (lh.take i) m).cache)
    (h : rest.Holds interp.semantics (Intact K V) Q (installed G recovering tail lh m)) :
    (installTransFrom G recovering tail lh >>= fun _ => rest).Holds interp.semantics
      (Intact K V) Q m := by
  induction lh generalizing tail m with
  | nil => exact h
  | cons b lh ih =>
    simp only [List.length_cons] at hfits
    have hb : G.Home b := hhome b List.mem_cons_self
    have hrest := ih (m := (m.copied b (G.start + tail + 1)).unpinned recovering b) (tail + 1)
      (fun x hx => hhome x (List.mem_cons_of_mem b hx)) (by omega)
      ((hm.copied _ _).unpinned recovering (by simp [Mem.copied])) (by
        rintro rfl
        obtain ⟨hnodup, hall⟩ := hpin rfl
        refine ⟨hnodup.of_cons, fun x hx => ?_⟩
        have hxb : x ≠ b := by
          rintro rfl
          exact (List.nodup_cons.mp hnodup).1 hx
        simpa [Mem.unpinned, Mem.copied, hxb] using hall x (List.mem_cons_of_mem b hx))
      (fun i => by simpa [installed] using hK (i + 1))
      (fun i => by simpa [installed] using hV (i + 1)) h
    have hstep := holds_installTrans_step recovering b (G.start + tail + 1)
      (by unfold Geometry.Home at hb; omega) hm (fun hr => (hpin hr).2 b List.mem_cons_self)
      (hK 0) (by simpa [installed] using hK 1) (hV 0) (by simpa [installed] using hV 1) hrest
    cases recovering with
    | false => exact hstep
    | true => exact hstep

end Xv6.Log
