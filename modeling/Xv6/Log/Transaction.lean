import Xv6.Log.Replay

/-! `commit` and `recover_from_log` from start to end: what the disk and the memory are at every
point, and what they are at the end. -/
namespace Xv6.Log

open Bio Lib

variable {G : Geometry} {m : Mem} {d before after : Disk}

/-- Recovery from this disk yields the home blocks `R`. -/
structure Outcome (G : Geometry) (R d : Disk) : Prop where
  sound : Sound G d
  replay : ∀ b, G.Home b → replay G d b = R b

/-- Memory and disk while operations run: the disk has the state before the transaction, the cache
the state after it, and `log.lh` lists where they may differ. -/
structure Running (G : Geometry) (before after : Disk) (m : Mem) : Prop where
  held : ∀ b, m.held b = false
  size : m.log.size = G.size
  nodup : m.log.lh.Nodup
  pins : ∀ b, m.pins b = true ↔ b ∈ m.log.lh
  home : ∀ b ∈ m.log.lh, G.Home b
  uint : ∀ b ∈ m.log.lh, b < 2 ^ 32
  fits : m.log.lh.length + 1 ≤ G.size
  short : m.log.lh.length ≤ logSize
  cleared : Cleared G m.disk
  same : ∀ b, b ∉ m.log.lh → m.cache b = m.disk b
  before : ∀ b, G.Home b → m.disk b = before b
  after : ∀ b, G.Home b → m.cache b = after b

theorem Running.not_pinned (h : Running G before after m) {b : ℕ} :
    m.pins b = false ↔ b ∉ m.log.lh := by
  rw [← h.pins b, Bool.not_eq_true]

theorem Running.atRest (h : Running G before after m) : AtRest m :=
  ⟨h.held, fun b hb => h.same b (h.not_pinned.mp hb), fun b hb => (h.pins b).mp hb⟩

theorem Cleared.outcome {R : Disk} (h : Cleared G d) (hG : 1 ≤ G.size)
    (hR : ∀ b, G.Home b → d b = R b) : Outcome G R d :=
  ⟨h.sound hG, fun b hb => by rw [h.replay, hR b hb]⟩

theorem Outcome.of_installed {R : Disk} (hR : Outcome G R m.disk) (recovering : Bool)
    (hlh : readHeader (m.disk G.start) = m.log.lh) (hsame : ∀ b, ¬G.Home b → m.cache b = m.disk b)
    (i : ℕ) :
    Outcome G R (installed G recovering 0 (m.log.lh.take i) m).disk ∧
      ∀ x, ¬G.Home x → (installed G recovering 0 (m.log.lh.take i) m).disk x = m.disk x := by
  obtain ⟨hhome, hfits, hshort⟩ := hR.sound
  rw [hlh] at hhome hfits hshort
  have hsub : ∀ b ∈ m.log.lh.take i, G.Home b := fun b hb => hhome b (List.mem_of_mem_take hb)
  have hle := List.length_take_le' i m.log.lh
  obtain ⟨hd, -⟩ := installed_eq recovering 0 hsub (by omega) hsame
  have hout : ∀ x, ¬G.Home x → (installed G recovering 0 (m.log.lh.take i) m).disk x = m.disk x :=
    fun x hx => by rw [hd, replayFrom_of_not_home 0 hsub hx]
  have hhead : readHeader ((installed G recovering 0 (m.log.lh.take i) m).disk G.start) =
      m.log.lh := by
    rw [hout _ (not_home_start (by omega)), hlh]
  refine ⟨⟨⟨by rwa [hhead], by rwa [hhead], by rwa [hhead]⟩, fun b hb => ?_⟩, hout⟩
  rw [← hR.replay b hb, Log.replay, Log.replay, hhead, hlh, hd, replayFrom_take hhome hfits]

/-- `install_trans` and the second `write_head`, in `commit` and in `recover_from_log`. The
condition `K` has to hold of every disk on the way that recovery turns into `R`, and `V` of the
contents in memory with any number of blocks installed. -/
theorem holds_install_clear {R : Disk} {K : Disk → List ℕ → Prop} {V : Disk → Prop}
    (recovering : Bool)
    (hm : AtRest m) (hsize : m.log.size = G.size) (hlh : readHeader (m.disk G.start) = m.log.lh)
    (hR : Outcome G R m.disk) (hsame : ∀ b, ¬G.Home b → m.cache b = m.disk b)
    (hpin : if recovering then ∀ b, m.pins b = false
      else m.log.lh.Nodup ∧ ∀ b ∈ m.log.lh, m.pins b = true)
    (hK : ∀ d lh, Outcome G R d → (lh = m.log.lh ∨ lh = []) →
      (Cleared G d ∨ ∀ x, ¬G.Home x → d x = m.disk x) → K d lh)
    (hV : ∀ i, V (installed G recovering 0 (m.log.lh.take i) m).cache)
    (hVstart : ∀ c e, V c → V (Function.update c G.start e)) :
    Prog.Holds interp.semantics (Intact K V)
      (do installTrans G recovering; setLh []; writeHead G)
      (fun _ t => Running G R R t ∧ t.log = { m.log with lh := [] }) m := by
  obtain ⟨hhome, hfits, hshort⟩ := hR.sound
  have hsize' : 1 ≤ G.size := by omega
  rw [hlh] at hhome hfits hshort
  obtain ⟨hdisk, hcache⟩ := installed_eq recovering 0 hhome (by omega) hsame
  have hpart := hR.of_installed recovering hlh hsame
  have hall := hpart m.log.lh.length
  rw [List.take_length] at hall
  have hVall := hV m.log.lh.length
  rw [List.take_length] at hVall
  have hpins : ∀ b, (installed G recovering 0 m.log.lh m).pins b = false := by
    intro b
    cases recovering with
    | true => rw [installed_pins_recovering, hpin b]
    | false =>
      rw [installed_pins]
      split_ifs with hb
      · rfl
      · rw [← Bool.not_eq_true]
        exact fun h => hb (hm.pinned b h)
  have hrest : AtRest { installed G recovering 0 m.log.lh m with
      log := { (installed G recovering 0 m.log.lh m).log with lh := [] } } := by
    have := installed_atRest (G := G) recovering 0 m.log.lh hm
    exact ⟨this.held, this.coherent, fun b hb => by simp [hpins] at hb⟩
  have hcl := cleared_writeHeader (G := G) ((installed G recovering 0 m.log.lh m).cache G.start)
    (installed G recovering 0 m.log.lh m).disk
  have hend : ∀ b, G.Home b → Function.update (installed G recovering 0 m.log.lh m).disk G.start
      (writeHeader [] ((installed G recovering 0 m.log.lh m).cache G.start)) b = R b := by
    intro b hb
    have hne : b ≠ G.start := fun e => not_home_start hsize' (e ▸ hb)
    rw [Function.update_of_ne hne, hdisk, ← hR.replay b hb, replay, hlh]
  have hK₀ := hK _ _ hR (Or.inl rfl) (Or.inr fun _ _ => rfl)
  have hK₁ := hK _ _ (hcl.outcome hsize' hend) (Or.inr rfl) (Or.inl hcl)
  unfold installTrans
  simp only [Prog.bind_assoc]
  apply holds_getLh (hm.intact hK₀ (hV 0))
  refine holds_installTransFrom recovering 0 _ hhome (by omega) hm (by
    rintro rfl
    exact hpin) (fun i => hK _ _ (hpart i).1 (Or.inl rfl) (Or.inr (hpart i).2)) hV ?_
  apply holds_setLh ((installed_atRest recovering 0 _ hm).intact
    (hK _ _ hall.1 (Or.inl (by simp)) (Or.inr hall.2)) hVall)
  rw [← Prog.bind_ret_unit (writeHead G)]
  refine holds_writeHead hrest rfl (hK _ _ hall.1 (Or.inr rfl) (Or.inr hall.2)) hK₁ hVall
    (hVstart _ _ hVall) ?_
  have hcoh : ∀ b, Function.update (installed G recovering 0 m.log.lh m).cache G.start
      (writeHeader [] ((installed G recovering 0 m.log.lh m).cache G.start)) b =
      Function.update (installed G recovering 0 m.log.lh m).disk G.start
      (writeHeader [] ((installed G recovering 0 m.log.lh m).cache G.start)) b := by
    intro b
    have := hrest.coherent b (hpins b)
    simp only [Function.update_apply] at this ⊢
    rw [this]
  refine ⟨⟨hK₁, hVstart _ _ hVall, fun b _ _ => hcoh b, fun b hb => by simp [hpins] at hb⟩, ?_,
    by simp⟩
  constructor
  · exact hrest.held
  · simpa using hsize
  · simp
  · simp [hpins]
  · simp
  · simp
  · simpa using hsize'
  · simp
  · exact hcl
  · exact fun b _ => hcoh b
  · exact hend
  · exact fun b hb => (hcoh b).trans (hend b hb)

theorem holds_recoverFromLog {R : Disk} (hR : Outcome G R d) :
    (recoverFromLog G).Holds interp.semantics (Intact (fun d _ => Outcome G R d) fun _ => True)
      (fun _ t => Running G R R t ∧ t.log = ⟨G.size, 0, false, []⟩) (.cold G.size d) := by
  have hcold : ∀ lh, AtRest { Mem.cold G.size d with log := ⟨G.size, 0, false, lh⟩ } := fun lh =>
    ⟨fun _ => rfl, fun _ _ => rfl, fun b hb => absurd hb (by simp [Mem.cold])⟩
  unfold recoverFromLog readHead
  simp only [Prog.bind_assoc]
  apply holds_bread ((hcold []).intact hR trivial) rfl
  apply holds_setLh ((hcold []).intact_held hR trivial fun _ _ => rfl)
  apply holds_brelse ((hcold _).intact_held hR trivial fun _ _ => rfl) (by simp)
  have hheld : Function.update (Function.update (Mem.cold G.size d).held G.start true) G.start false =
      (Mem.cold G.size d).held := by
    rw [Function.update_idem]
    exact Function.update_eq_self _ _
  rw [hheld]
  exact holds_install_clear true (hcold _) rfl rfl hR (fun _ _ => rfl) (fun _ => rfl)
    (fun _ _ h _ _ => h) (fun _ => trivial) fun _ _ _ => trivial

/-- Recovery from this disk yields the home blocks before or those after a transaction. -/
def Recoverable (G : Geometry) (before after d : Disk) : Prop :=
  Outcome G before d ∨ Outcome G after d

/-- The log on this disk holds the contents `after` of the blocks that its header lists. -/
def Logged (G : Geometry) (after d : Disk) : Prop :=
  ∀ k (hk : k < (readHeader (d G.start)).length),
    d (G.start + k + 1) = after (readHeader (d G.start))[k]

theorem Cleared.logged (h : Cleared G d) : Logged G after d := by
  intro k hk
  simp [h.readHeader] at hk

theorem Logged.congr {e : Disk} (h : Logged G after e) (hs : Sound G e)
    (hlog : ∀ x, ¬G.Home x → d x = e x) : Logged G after d := by
  have hfits := hs.fits
  have hstart : d G.start = e G.start := hlog _ (not_home_start (by omega))
  intro k hk
  simp only [hstart] at hk ⊢
  rw [hlog _ (by unfold Geometry.Home; omega)]
  exact h k hk

/-- In memory the home blocks are as the transaction leaves them. -/
def Viewed (G : Geometry) (after cache : Disk) : Prop := ∀ b, G.Home b → cache b = after b

theorem Viewed.start {cache : Disk} (h : Viewed G after cache) (hG : 1 ≤ G.size) (c : Block) :
    Viewed G after (Function.update cache G.start c) := by
  intro b hb
  have hne : b ≠ G.start := fun e => not_home_start hG (e ▸ hb)
  rw [Function.update_of_ne hne, h b hb]

/-- What holds of the disk and `log.lh` throughout `commit`; `L` are the recorded blocks. -/
structure Committing (G : Geometry) (before after : Disk) (L : List ℕ) (d : Disk) (lh : List ℕ) :
    Prop where
  recoverable : Recoverable G before after d
  logged : Logged G after d
  nodup : lh.Nodup
  home : ∀ b ∈ lh, G.Home b
  listed : lh ⊆ L
  header : readHeader (d G.start) ⊆ L

theorem Running.cleared_wroteLog (h : Running G before after m) (i : ℕ) :
    Cleared G (wroteLog G 0 (m.log.lh.take i) m).disk := by
  unfold Cleared
  rw [(wroteLog_of_out 0 _ (by omega)).1]
  exact h.cleared

theorem Running.wroteLog (h : Running G before after m) {L : List ℕ} (hL : m.log.lh ⊆ L) (i : ℕ) :
    Committing G before after L (wroteLog G 0 (m.log.lh.take i) m).disk m.log.lh := by
  have hle := List.length_take_le' i m.log.lh
  have hfits := h.fits
  have hcl := h.cleared_wroteLog i
  refine ⟨Or.inl (hcl.outcome (by omega) fun b hb => ?_), hcl.logged, h.nodup, h.home, hL,
    by simp [hcl.readHeader]⟩
  rw [← h.before b hb]
  unfold Geometry.Home at hb
  exact (wroteLog_of_out 0 _ (by omega)).1

theorem Running.viewed_wroteLog (h : Running G before after m) (i : ℕ) :
    Viewed G after (Log.wroteLog G 0 (m.log.lh.take i) m).cache := by
  have hle := List.length_take_le' i m.log.lh
  have hfits := h.fits
  intro b hb
  rw [← h.after b hb]
  unfold Geometry.Home at hb
  exact (wroteLog_of_out 0 _ (by omega)).2

/-- The memory when the header has been written and the transaction is committed. -/
def committed (G : Geometry) (m : Mem) : Mem :=
  let t := wroteLog G 0 m.log.lh m
  let c := writeHeader m.log.lh (t.cache G.start)
  { t with cache := Function.update t.cache G.start c, disk := Function.update t.disk G.start c }

@[simp] theorem committed_log : (committed G m).log = m.log := by simp [committed]

@[simp] theorem committed_pins : (committed G m).pins = m.pins := by simp [committed]

theorem Running.readHeader_committed (h : Running G before after m) :
    readHeader ((committed G m).disk G.start) = m.log.lh := by
  simp only [committed, Function.update_self]
  exact readHeader_writeHeader _ h.uint h.short

theorem Running.log_block_committed (h : Running G before after m) {k : ℕ}
    (hk : k < m.log.lh.length) : (committed G m).disk (G.start + k + 1) = m.cache m.log.lh[k] := by
  have hfits := h.fits
  have hblock := (wroteLog_log_block (m := m) 0 h.home (by omega) hk).1
  rw [Nat.zero_add] at hblock
  simp only [committed]
  rw [Function.update_of_ne (by omega), hblock]

theorem Running.outcome_committed (h : Running G before after m) :
    Outcome G after (committed G m).disk := by
  have hfits := h.fits
  have hhead := h.readHeader_committed
  refine ⟨⟨by rw [hhead]; exact h.home, by rwa [hhead], by rw [hhead]; exact h.short⟩, ?_⟩
  intro b hb
  rw [replay, hhead, replayFrom_eq 0 h.home (by omega) fun k hk => by
    rw [Nat.zero_add]; exact h.log_block_committed hk]
  split_ifs with hmem
  · exact h.after b hb
  · rw [← h.after b hb, h.same b hmem]
    have hne : b ≠ G.start := fun e => not_home_start (by omega) (e ▸ hb)
    unfold Geometry.Home at hb
    simp only [committed, Function.update_of_ne hne]
    exact (wroteLog_of_out 0 _ (by omega)).1

theorem Running.logged_committed (h : Running G before after m) :
    Logged G after (committed G m).disk := by
  intro k hk
  simp only [h.readHeader_committed] at hk ⊢
  rw [h.log_block_committed hk, h.after _ (h.home _ (List.getElem_mem _))]

theorem Running.atRest_committed (h : Running G before after m) : AtRest (committed G m) := by
  have hw := wroteLog_atRest (G := G) 0 m.log.lh h.atRest
  refine ⟨hw.held, fun b hb => ?_, hw.pinned⟩
  have := hw.coherent b hb
  simp only [committed, Function.update_apply, this]

theorem Running.viewed_committed (h : Running G before after m) :
    Viewed G after (committed G m).cache := by
  have hall := h.viewed_wroteLog m.log.lh.length
  rw [List.take_length] at hall
  have hfits := h.fits
  exact hall.start (by omega) _

theorem Running.viewed_installed (h : Running G before after m) (i : ℕ) :
    Viewed G after (installed G false 0 (m.log.lh.take i) (committed G m)).cache := by
  have hle := List.length_take_le' i m.log.lh
  have hfits := h.fits
  intro b hb
  apply installed_view false 0 (fun b hb => h.home b (List.mem_of_mem_take hb)) (by omega)
    h.viewed_committed ?_ hb
  intro k hk
  rw [List.getElem_take]
  have hk' : k < m.log.lh.length := by omega
  have hpin : (committed G m).pins (G.start + k + 1) = false := by
    rw [committed_pins, h.not_pinned]
    intro hmem
    have := h.home _ hmem
    unfold Geometry.Home at this
    omega
  rw [Nat.zero_add, h.atRest_committed.coherent _ hpin, h.log_block_committed hk',
    h.after _ (h.home _ (List.getElem_mem _))]

theorem holds_commit (h : Running G before after m) {L : List ℕ} (hL : m.log.lh ⊆ L) :
    (commit G).Holds interp.semantics (Intact (Committing G before after L) (Viewed G after))
      (fun _ t => Running G after after t ∧ t.log = { m.log with lh := [] }) m := by
  have hfits := h.fits
  have hnow : Committing G before after L m.disk m.log.lh := h.wroteLog hL 0
  unfold commit
  apply holds_getLh (h.atRest.intact hnow h.after)
  split_ifs with hn
  · unfold writeLog
    simp only [Prog.bind_assoc]
    apply holds_getLh (h.atRest.intact hnow h.after)
    have hall := h.wroteLog hL m.log.lh.length
    have hview := h.viewed_wroteLog m.log.lh.length
    rw [List.take_length] at hall hview
    have hpoint : Committing G before after L (committed G m).disk m.log.lh :=
      ⟨Or.inr h.outcome_committed, h.logged_committed, h.nodup, h.home, hL,
        by rw [h.readHeader_committed]; exact hL⟩
    refine holds_writeLogFrom 0 _ h.home (by omega) h.atRest (h.wroteLog hL) h.viewed_wroteLog ?_
    refine holds_writeHead (wroteLog_atRest 0 _ h.atRest) rfl (by simpa using hall)
      (by simpa [committed] using hpoint) hview (hview.start (by omega) _) ?_
    have htail := holds_install_clear (m := committed G m) (K := Committing G before after L)
      (V := Viewed G after) false h.atRest_committed (by simpa using h.size) (by simpa using h.readHeader_committed)
      h.outcome_committed
      (fun b hb => h.atRest_committed.coherent b
        (by simpa [h.not_pinned] using fun hmem => hb (h.home b hmem)))
      (by simpa using ⟨h.nodup, fun b hb => (h.pins b).mpr hb⟩) (by
        intro d lh hd hlh hlog
        refine ⟨Or.inr hd, ?_, ?_, ?_, ?_, ?_⟩
        · rcases hlog with hcl | hlog
          · exact hcl.logged
          · exact h.logged_committed.congr h.outcome_committed.sound hlog
        · rcases hlh with rfl | rfl
          · simpa using h.nodup
          · simp
        · rcases hlh with rfl | rfl
          · simpa using h.home
          · simp
        · rcases hlh with rfl | rfl
          · simpa using hL
          · simp
        · rcases hlog with hcl | hlog
          · simp [hcl.readHeader]
          · rw [hlog _ (not_home_start (by omega)), h.readHeader_committed]
            exact hL)
      (fun i => by rw [committed_log]; exact h.viewed_installed i)
      (fun c e hc => Viewed.start hc (by omega) e)
    simpa [committed] using htail
  · have hnil : m.log.lh = [] := by
      rw [← List.length_eq_zero_iff]
      omega
    have hsame : ∀ b, G.Home b → m.disk b = after b := fun b hb => by
      rw [← h.same b (by simp [hnil]), h.after b hb]
    refine ⟨h.atRest.intact hnow h.after, ⟨h.held, h.size, h.nodup, h.pins, h.home, h.uint, h.fits, h.short,
      h.cleared, h.same, hsame, h.after⟩, ?_⟩
    rw [← hnil]

end Xv6.Log
