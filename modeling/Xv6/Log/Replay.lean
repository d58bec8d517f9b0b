import Xv6.Log.Install

/-! Installing a log is idempotent, and the header block keeps what is written to it. -/
namespace Xv6.Log

open Lib

section Header

theorem readHeader_writeHeader {lh : List ℕ} (c : Block) (h32 : ∀ b ∈ lh, b < 2 ^ 32)
    (hlen : lh.length ≤ logSize) : readHeader (writeHeader lh c) = lh := by
  rw [logSize_eq] at hlen
  have hn : (writeHeader lh c).getLE 0 4 = lh.length := by
    unfold writeHeader
    rw [Bytes.getLE_setWords_of_disjoint _ _ _ (by omega), Bytes.getLE_setLE_self (by decide),
      Nat.mod_eq_of_lt (by norm_num; omega)]
  unfold readHeader
  rw [hn, int32_of_lt (by omega), Int.toNat_natCast]
  apply List.ext_getElem
  · simp
  · intro k hk hk'
    simp only [List.getElem_map, List.getElem_range]
    unfold writeHeader
    rw [Bytes.getLE_setWords 4 lh _ (by rw [bsize_eq]; omega) hk',
      Nat.mod_eq_of_lt (h32 _ (List.getElem_mem hk'))]

theorem cleared_writeHeader {G : Geometry} (c : Block) (d : Disk) :
    Cleared G (Function.update d G.start (writeHeader [] c)) := by
  unfold Cleared
  rw [Function.update_self]
  exact Bytes.getLE_setLE_self (by decide)

theorem Cleared.readHeader {G : Geometry} {d : Disk} (h : Cleared G d) :
    readHeader (d G.start) = [] := by
  unfold Log.readHeader
  rw [h]
  rfl

end Header

variable {G : Geometry} {d : Disk} {lh : List ℕ}

theorem Cleared.replay (h : Cleared G d) : replay G d = d := by
  unfold Log.replay
  rw [h.readHeader, replayFrom]

theorem Cleared.sound (h : Cleared G d) (hG : 1 ≤ G.size) : Sound G d := by
  constructor <;> rw [h.readHeader] <;> simp [hG]

theorem not_home_start (hG : 1 ≤ G.size) : ¬G.Home G.start := by
  unfold Geometry.Home
  omega

theorem replayFrom_of_not_home (tail : ℕ) (hhome : ∀ b ∈ lh, G.Home b) {x : ℕ} (hx : ¬G.Home x) :
    replayFrom G tail lh d x = d x := by
  induction lh generalizing tail d with
  | nil => rfl
  | cons b lh ih =>
    have hb : x ≠ b := fun e => hx (e ▸ hhome b List.mem_cons_self)
    rw [replayFrom, ih (tail + 1) fun y hy => hhome y (List.mem_cons_of_mem b hy),
      Function.update_of_ne hb]

theorem replayFrom_of_notMem (tail : ℕ) {x : ℕ} (hx : x ∉ lh) : replayFrom G tail lh d x = d x := by
  induction lh generalizing tail d with
  | nil => rfl
  | cons b lh ih =>
    rw [List.mem_cons, not_or] at hx
    rw [replayFrom, ih (tail + 1) hx.2, Function.update_of_ne hx.1]

theorem replayFrom_congr {e : Disk} (tail : ℕ) (hhome : ∀ b ∈ lh, G.Home b)
    (hfits : tail + lh.length + 1 ≤ G.size) (hlog : ∀ x, ¬G.Home x → d x = e x) {x : ℕ}
    (hx : x ∈ lh ∨ d x = e x) : replayFrom G tail lh d x = replayFrom G tail lh e x := by
  induction lh generalizing tail d e with
  | nil => simpa [replayFrom] using hx
  | cons b lh ih =>
    have hb : G.Home b := hhome b List.mem_cons_self
    have hsrc : d (G.start + tail + 1) = e (G.start + tail + 1) := by
      apply hlog
      simp only [List.length_cons] at hfits
      unfold Geometry.Home
      omega
    rw [replayFrom, replayFrom, hsrc]
    apply ih (tail + 1) (fun y hy => hhome y (List.mem_cons_of_mem b hy))
      (by simp only [List.length_cons] at hfits; omega)
    · intro y hy
      have hyb : y ≠ b := fun h => hy (h ▸ hb)
      rw [Function.update_of_ne hyb, Function.update_of_ne hyb, hlog y hy]
    · by_cases hxb : x = b
      · right
        rw [hxb, Function.update_self, Function.update_self]
      · rw [Function.update_of_ne hxb, Function.update_of_ne hxb]
        exact hx.imp_left fun h => (List.mem_cons.mp h).resolve_left hxb

theorem replayFrom_take (hhome : ∀ b ∈ lh, G.Home b) (hfits : lh.length + 1 ≤ G.size) (i : ℕ) :
    replayFrom G 0 lh (replayFrom G 0 (lh.take i) d) = replayFrom G 0 lh d := by
  have hsub : ∀ b ∈ lh.take i, G.Home b := fun b hb => hhome b (List.mem_of_mem_take hb)
  funext x
  apply replayFrom_congr 0 hhome (by omega)
  · intro y hy
    exact replayFrom_of_not_home 0 hsub hy
  · by_cases hx : x ∈ lh
    · exact Or.inl hx
    · exact Or.inr (replayFrom_of_notMem 0 fun h => hx (List.mem_of_mem_take h))

theorem replayFrom_eq {v : Disk} (tail : ℕ) (hhome : ∀ b ∈ lh, G.Home b)
    (hfits : tail + lh.length + 1 ≤ G.size)
    (hlog : ∀ k (hk : k < lh.length), d (G.start + (tail + k) + 1) = v lh[k]) (x : ℕ) :
    replayFrom G tail lh d x = if x ∈ lh then v x else d x := by
  induction lh generalizing tail d with
  | nil => simp [replayFrom]
  | cons b lh ih =>
    simp only [List.length_cons] at hfits hlog
    have hb : G.Home b := hhome b List.mem_cons_self
    have hsrc : d (G.start + tail + 1) = v b := hlog 0 (by omega)
    rw [replayFrom, hsrc, ih (tail + 1) (fun y hy => hhome y (List.mem_cons_of_mem b hy)) (by omega)]
    · by_cases hxb : x = b
      · simp [hxb]
      · simp [hxb]
    · intro k hk
      have hne : G.start + (tail + 1 + k) + 1 ≠ b := by
        unfold Geometry.Home at hb
        omega
      rw [Function.update_of_ne hne, show tail + 1 + k = tail + (k + 1) by omega]
      exact hlog (k + 1) (by omega)

variable {m : Mem}

variable (recovering : Bool)

@[simp] theorem installed_log (tail : ℕ) : (installed G recovering tail lh m).log = m.log := by
  induction lh generalizing tail m with
  | nil => rfl
  | cons b lh ih =>
    rw [installed, ih]
    simp

theorem installed_pins_recovering (tail : ℕ) : (installed G true tail lh m).pins = m.pins := by
  induction lh generalizing tail m with
  | nil => rfl
  | cons b lh ih =>
    rw [installed, ih]
    rfl

theorem installed_pins (tail x : ℕ) :
    (installed G false tail lh m).pins x = if x ∈ lh then false else m.pins x := by
  induction lh generalizing tail m with
  | nil => simp [installed]
  | cons b lh ih =>
    rw [installed, ih]
    by_cases hx : x = b
    · simp [hx, Mem.unpinned]
    · simp [hx, Mem.unpinned]

theorem installed_atRest (tail : ℕ) (lh : List ℕ) (hm : AtRest m) : AtRest (installed G recovering tail lh m) := by
  induction lh generalizing tail m with
  | nil => exact hm
  | cons b lh ih =>
    exact ih (tail + 1) ((hm.copied _ _).unpinned recovering (by simp [Mem.copied]))

theorem installed_view {v : Disk} (tail : ℕ) (hhome : ∀ b ∈ lh, G.Home b)
    (hfits : tail + lh.length + 1 ≤ G.size) (hview : ∀ b, G.Home b → m.cache b = v b)
    (hlog : ∀ k (hk : k < lh.length), m.cache (G.start + (tail + k) + 1) = v lh[k]) {b : ℕ}
    (hb : G.Home b) : (installed G recovering tail lh m).cache b = v b := by
  induction lh generalizing tail m with
  | nil => exact hview b hb
  | cons x lh ih =>
    simp only [List.length_cons] at hfits hlog
    have hx : G.Home x := hhome x List.mem_cons_self
    apply ih (tail + 1) (fun y hy => hhome y (List.mem_cons_of_mem x hy)) (by omega)
    · intro y hy
      rw [Mem.unpinned_cache]
      simp only [Mem.copied, Function.update_apply]
      split_ifs with hyx
      · exact hyx ▸ hlog 0 (by omega)
      · exact hview y hy
    · intro k hk
      have hne : G.start + (tail + 1 + k) + 1 ≠ x := by
        unfold Geometry.Home at hx
        omega
      rw [Mem.unpinned_cache, show tail + 1 + k = tail + (k + 1) by omega] at *
      simp only [Mem.copied, Function.update_of_ne hne]
      exact hlog (k + 1) (by omega)

/-- If the log blocks in memory are those on the disk, installing replays the disk and leaves
the blocks it wrote as they are on the disk. -/
theorem installed_eq (tail : ℕ) (hhome : ∀ b ∈ lh, G.Home b) (hfits : tail + lh.length + 1 ≤ G.size)
    (hlog : ∀ x, ¬G.Home x → m.cache x = m.disk x) :
    (installed G recovering tail lh m).disk = replayFrom G tail lh m.disk ∧
      ∀ x, (installed G recovering tail lh m).cache x =
        if x ∈ lh then (installed G recovering tail lh m).disk x else m.cache x := by
  induction lh generalizing tail m with
  | nil => simp [installed, replayFrom]
  | cons b lh ih =>
    simp only [List.length_cons] at hfits
    have hb : G.Home b := hhome b List.mem_cons_self
    have hsrc : m.cache (G.start + tail + 1) = m.disk (G.start + tail + 1) := by
      apply hlog
      unfold Geometry.Home
      omega
    obtain ⟨hdisk, hcache⟩ := ih
      (m := (m.copied b (G.start + tail + 1)).unpinned recovering b) (tail + 1)
      (fun y hy => hhome y (List.mem_cons_of_mem b hy)) (by omega) (by
        intro x hx
        have hxb : x ≠ b := fun e => hx (e ▸ hb)
        simp only [Mem.unpinned_cache, Mem.unpinned_disk, Mem.copied, Function.update_of_ne hxb]
        exact hlog x hx)
    rw [installed, replayFrom, ← hsrc]
    refine ⟨by simpa [Mem.copied] using hdisk, fun x => ?_⟩
    rw [hcache]
    by_cases hx : x ∈ lh
    · simp [hx]
    · by_cases hxb : x = b
      · subst hxb
        rw [hdisk, replayFrom_of_notMem _ hx]
        simp [hx, Mem.copied]
      · simp [hx, hxb, Mem.copied]

@[simp] theorem wroteLog_log (tail : ℕ) : (wroteLog G tail lh m).log = m.log := by
  induction lh generalizing tail m with
  | nil => rfl
  | cons b lh ih => exact ih (tail + 1)

@[simp] theorem wroteLog_held (tail : ℕ) : (wroteLog G tail lh m).held = m.held := by
  induction lh generalizing tail m with
  | nil => rfl
  | cons b lh ih => exact ih (tail + 1)

@[simp] theorem wroteLog_pins (tail : ℕ) : (wroteLog G tail lh m).pins = m.pins := by
  induction lh generalizing tail m with
  | nil => rfl
  | cons b lh ih => exact ih (tail + 1)

theorem wroteLog_atRest (tail : ℕ) (lh : List ℕ) (hm : AtRest m) : AtRest (wroteLog G tail lh m) := by
  induction lh generalizing tail m with
  | nil => exact hm
  | cons b lh ih => exact ih (tail + 1) (hm.copied _ _)

theorem wroteLog_of_out (tail : ℕ) (lh : List ℕ) {x : ℕ}
    (hx : x ≤ G.start + tail ∨ G.start + tail + lh.length < x) :
    (wroteLog G tail lh m).disk x = m.disk x ∧ (wroteLog G tail lh m).cache x = m.cache x := by
  induction lh generalizing tail m with
  | nil => exact ⟨rfl, rfl⟩
  | cons b lh ih =>
    simp only [List.length_cons] at hx
    obtain ⟨hd, hc⟩ := ih (m := m.copied (G.start + tail + 1) b) (tail + 1) (by omega)
    have hne : x ≠ G.start + tail + 1 := by omega
    rw [wroteLog, hd, hc]
    simp [Mem.copied, hne]

theorem wroteLog_log_block (tail : ℕ) (hhome : ∀ b ∈ lh, G.Home b)
    (hfits : tail + lh.length + 1 ≤ G.size) {k : ℕ} (hk : k < lh.length) :
    (wroteLog G tail lh m).disk (G.start + (tail + k) + 1) = m.cache lh[k] ∧
      (wroteLog G tail lh m).cache (G.start + (tail + k) + 1) = m.cache lh[k] := by
  induction lh generalizing tail m k with
  | nil => simp at hk
  | cons b lh ih =>
    simp only [List.length_cons] at hfits hk
    rw [wroteLog]
    cases k with
    | zero =>
      obtain ⟨hd, hc⟩ := wroteLog_of_out (G := G) (m := m.copied (G.start + tail + 1) b) (tail + 1)
        lh (x := G.start + tail + 1) (by omega)
      simp only [Nat.add_zero]
      rw [hd, hc]
      simp [Mem.copied]
    | succ k =>
      have hhome' : ∀ y ∈ lh, G.Home y := fun y hy => hhome y (List.mem_cons_of_mem b hy)
      obtain ⟨hd, hc⟩ := ih (m := m.copied (G.start + tail + 1) b) (tail + 1) hhome' (by omega)
        (k := k) (by omega)
      have hne : lh[k] ≠ G.start + tail + 1 := by
        have := hhome' lh[k] (List.getElem_mem _)
        unfold Geometry.Home at this
        omega
      rw [show tail + (k + 1) = tail + 1 + k by omega, hd, hc]
      simp [Mem.copied, hne]

end Xv6.Log
