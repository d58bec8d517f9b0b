import Xv6.Log.GroupCommit

/-! How many blocks an operation may log. `begin_op` reserves `MAXOPBLOCKS` blocks out of
`LOGSIZE`, but `log_write` keeps one block of the on-disk log for the header and one more in hand:
the log that mkfs lays out takes operations of at most `MAXOPBLOCKS - 1` distinct blocks. -/
namespace Xv6.Log

open Lib

variable {N K : ℕ} {allowed : State N → Fin N → ℕ → Prop} {s t : State N}

/-- Every operation asks to log at most `K` distinct blocks, each any number of times. -/
def withinBudget (K : ℕ) (s : State N) (p : Fin N) (b : ℕ) : Prop :=
  (insert b (s.written p)).card ≤ K

/-- What a process may still add to the log. -/
def reserve (s : State N) (p : Fin N) : ℤ :=
  if (s.pc p).admitted then maxOpBlocks - ((s.written p).card : ℤ) else 0

/-- Operations stay within their budget, and what they logged is in the header. -/
structure Budget (K : ℕ) (s : State N) : Prop where
  card_le : ∀ p, (s.pc p).admitted = true → (s.written p).card ≤ K
  pending : ∀ p b, (s.pc p).pending = some b → withinBudget K s p b
  logged : ∀ p, (s.pc p).admitted = true → ∀ b ∈ s.written p, b ∈ s.log.lh

theorem written_congr (hid : t.opId = s.opId) (hh : t.history = s.history) (p : Fin N) :
    t.written p = s.written p := by
  simp [State.written, hid, hh]

theorem written_write {p : Fin N} {b epoch : ℕ} (hid : t.opId = s.opId)
    (hh : t.history = s.history ++ [⟨s.opId p, epoch, b⟩]) (q : Fin N) :
    t.written q = if s.opId q = s.opId p then insert b (s.written q) else s.written q := by
  unfold State.written
  rw [hid, hh, List.filter_append, List.map_append, List.toFinset_append]
  by_cases h : s.opId q = s.opId p
  · simp [h, Finset.union_comm _ {b}]
  · simp [h, Ne.symm h]

theorem written_enter (h : History s) {p : Fin N}
    (hid : t.opId = Function.update s.opId p s.nextOp) (hh : t.history = s.history) (q : Fin N) :
    t.written q = if q = p then ∅ else s.written q := by
  unfold State.written
  by_cases hq : q = p
  · have hold : ∀ e ∈ s.history, ¬ e.op = s.nextOp := fun e he => (h.op_lt e he).ne
    simpa [hid, hh, hq] using hold
  · simp [hid, hh, hq]

namespace Budget

theorem initial {size : ℤ} (h : Initial size s) : Budget K s := by
  constructor <;> simp [h.pc, Pc.admitted, Pc.pending]

theorem congr (h : Budget K s) (hst : Same s t)
    (ha : ∀ q, (t.pc q).admitted = true → (s.pc q).admitted = true)
    (hp : ∀ q b, (t.pc q).pending = some b → withinBudget K s q b) : Budget K t where
  card_le q hq := by
    rw [written_congr hst.opId hst.history]
    exact h.card_le q (ha q hq)
  pending q b hq := by
    unfold withinBudget
    rw [written_congr hst.opId hst.history]
    exact hp q b hq
  logged q hq := by
    rw [written_congr hst.opId hst.history, hst.lh]
    exact h.logged q (ha q hq)

theorem step (h : Budget K s) (hs : Control s) (hh : History s)
    (hst : Step (withinBudget K) s t) : Budget K t := by
  cases hst.effect with
  | quiet hsame ha hp =>
    exact h.congr hsame (fun q hq => (ha q).symm.trans hq) fun q b hq =>
      h.pending q b ((hp q).symm.trans hq)
  | entered p hpc hp hw hlh hid hn hcs hhist =>
    have hwr := written_enter hh hid hhist
    have hother : ∀ q, q ≠ p → t.pc q = s.pc q := fun q hq => by simp [hpc, hq]
    refine ⟨fun q hq => ?_, fun q b hq => ?_, fun q hq => ?_⟩
    · rw [hwr]
      split_ifs with hqp
      · simp
      · exact h.card_le q (by rwa [hother q hqp] at hq)
    · by_cases hqp : q = p
      · simp [hpc, hqp, Pc.pending] at hq
      · unfold withinBudget
        rw [hwr, if_neg hqp]
        exact h.pending q b (by rwa [hother q hqp] at hq)
    · rw [hwr, hlh]
      split_ifs with hqp
      · simp
      · exact h.logged q (by rwa [hother q hqp] at hq)
  | called p b hsame hpc hp ha =>
    refine h.congr hsame (admitted_of_goto hpc fun _ => by rw [hp]; rfl) fun q c hq => ?_
    by_cases hqp : q = p
    · subst hqp
      simp only [hpc, State.goto_pc, if_true, Pc.pending, Option.some.injEq] at hq
      exact hq ▸ ha
    · exact h.pending q c (by simpa [hpc, hqp] using hq)
  | wrote p b hpc hp hlh hid hn hcs hhist =>
    have hadm : ∀ q, (t.pc q).admitted = (s.pc q).admitted := fun q => by
      rw [hpc, State.goto_flag Pc.admitted (by rw [hp]; rfl)]
    have hpa : (s.pc p).admitted = true := by rw [hp]; rfl
    have hwr : ∀ q, (s.pc q).admitted = true →
        t.written q = if q = p then insert b (s.written q) else s.written q := by
      intro q hq
      rw [written_write hid hhist]
      exact if_congr ⟨hh.id_inj q p hq hpa, fun e => e ▸ rfl⟩ rfl rfl
    have hin : withinBudget K s p b := h.pending p b (by rw [hp]; rfl)
    refine ⟨fun q hq => ?_, fun q c hq => ?_, fun q hq => ?_⟩
    · rw [hwr q ((hadm q).symm.trans hq)]
      split_ifs with hqp
      · exact hqp ▸ hin
      · exact h.card_le q ((hadm q).symm.trans hq)
    · by_cases hqp : q = p
      · simp [hpc, hqp, Pc.pending] at hq
      · have hqs : (s.pc q).pending = some c := by simpa [hpc, hqp] using hq
        have hqa : (s.pc q).admitted = true := by
          cases hc : s.pc q <;> simp_all [Pc.pending, Pc.admitted]
        unfold withinBudget
        rw [hwr q hqa, if_neg hqp]
        exact h.pending q c hqs
    · intro x hx
      rw [hwr q ((hadm q).symm.trans hq)] at hx
      have hold : x ∈ s.written q → x ∈ s.log.lh := h.logged q ((hadm q).symm.trans hq) x
      rw [hlh]
      split_ifs at hx ⊢ <;> grind
  | ended p c hsame hpc hp hc hc' =>
    refine h.congr hsame (admitted_of_goto hpc (by simp [hc])) fun q b hq => ?_
    by_cases hqp : q = p
    · simp [hpc, hqp, hc'] at hq
    · exact h.pending q b (by simpa [hpc, hqp] using hq)
  | cleared p hpc hp hlh hid hn hcs hhist =>
    have hno := hs.quiet (hs.flag.mpr ⟨p, by rw [hp]; rfl⟩)
    have hnot : ∀ q, ¬ (t.pc q).admitted = true := fun q => by
      rw [hpc, State.goto_flag Pc.admitted (by rw [hp]; rfl), hno q]
      simp
    refine ⟨fun q hq => absurd hq (hnot q), fun q b hq => ?_, fun q hq => absurd hq (hnot q)⟩
    refine absurd ?_ (hnot q)
    cases hc : t.pc q <;> simp_all [Pc.pending, Pc.admitted]

theorem reachable {size : ℤ} (h : (protocol N size (withinBudget K)).Reachable s) : Budget K s :=
  h.invariant (fun _ => initial) fun s t hr hs (hst : _ ∧ Step (withinBudget K) s t) =>
    hs.step (.reachable hr) (.reachable hr) hst.2

end Budget

theorem reserve_congr (hst : Same s t) (ha : ∀ q, (t.pc q).admitted = (s.pc q).admitted)
    (p : Fin N) : reserve t p = reserve s p := by
  unfold reserve
  rw [ha, written_congr hst.opId hst.history]

theorem reserve_le (s : State N) (p : Fin N) :
    reserve s p ≤ maxOpBlocks * if (s.pc p).admitted then (1 : ℤ) else 0 := by
  unfold reserve
  split <;> simp

/-- Operations that stay below `MAXOPBLOCKS` keep a block each in reserve. -/
theorem Budget.le_reserve (h : Budget K s) (hK : K < maxOpBlocks) (p : Fin N) :
    (if (s.pc p).admitted then (1 : ℤ) else 0) ≤ reserve s p := by
  unfold reserve
  split_ifs with hp
  · have := h.card_le p hp
    omega
  · exact le_rfl

/-- The log has room for everything reserved. `e` counts the operations that ended since the last
admission, each with a block of its reservation unused. An operation is either admitted next to
another one or into an empty log. -/
def Room (s : State N) : Prop :=
  ∃ e : ℤ, 0 ≤ e ∧ (s.log.lh.length : ℤ) + ∑ q, reserve s q + e ≤ logSize ∧
    (2 ≤ s.log.outstanding + e ∨ (s.log.lh.length : ℤ) + ∑ q, reserve s q + e ≤ maxOpBlocks)

theorem Room.initial {size : ℤ} (h : Initial size s) : Room s := by
  refine ⟨0, le_rfl, ?_⟩
  simp [h.log, reserve, h.pc, Pc.admitted]

/-- With fewer than `MAXOPBLOCKS` blocks each, the admitted operations leave room in the log. -/
theorem Room.step (h : Room s) (hK : K < maxOpBlocks) (hs : Control s) (ht : Control t)
    (hh : History s) (hb : Budget K s) (hst : Step (withinBudget K) s t) : Room t := by
  obtain ⟨e, he, hroom, htwo⟩ := h
  have hM := maxOpBlocks_eq
  have hL := logSize_eq
  have hcount : ∀ p c, t.pc = (s.goto p c).pc → t.log.outstanding =
      s.log.outstanding - (if (s.pc p).admitted then 1 else 0) + if c.admitted then 1 else 0 := by
    intro p c hpc
    rw [ht.count, hpc, hs.count_goto p c]
  cases hst.effect with
  | quiet hsame ha hp =>
    have ho : t.log.outstanding = s.log.outstanding := by rw [hs.count, ht.count]; simp only [ha]
    have hr : ∑ q, reserve t q = ∑ q, reserve s q :=
      Finset.sum_congr rfl fun q _ => reserve_congr hsame ha q
    exact ⟨e, he, by rwa [hr, hsame.lh], by rwa [hr, hsame.lh, ho]⟩
  | entered p hpc hp hw hlh hid hn hcs hhist =>
    have hwr := written_enter hh hid hhist
    have hself : reserve t p = maxOpBlocks := by simp [reserve, hpc, hwr, Pc.admitted]
    have hold : reserve s p = 0 := by simp [reserve, hp]
    have hsum : ∑ q, reserve t q = ∑ q, reserve s q + maxOpBlocks := by
      rw [sum_eq_of_eq_off (f := reserve t) (g := reserve s) p, hself, hold, sub_zero]
      intro q hq
      simp [reserve, hpc, hwr, hq]
    have hle : ∑ q, reserve s q ≤ maxOpBlocks * s.log.outstanding := by
      rw [hs.count, Finset.mul_sum]
      exact Finset.sum_le_sum fun q _ => reserve_le s q
    have ho := hcount p .op hpc
    have hno : ¬ s.log.mustWait = true := by simp [hw]
    rw [mustWait_iff, not_or] at hno
    rw [hp] at ho
    simp only [hM, hL, Nat.cast_ofNat, Pc.admitted, Bool.false_eq_true, if_false, if_true] at hle hno ho
    refine ⟨0, le_rfl, by rw [hsum, hlh]; omega, ?_⟩
    by_cases h0 : s.log.outstanding = 0
    · right
      have hnil : s.log.lh = [] := hs.idle (by simpa using hno.1) fun q => by
        by_contra hq
        have := hs.outstanding_pos (p := q) (by simpa using hq)
        omega
      rw [hsum, hlh, hnil]
      simp only [List.length_nil]
      omega
    · left
      have hnn : 0 ≤ s.log.outstanding := by
        rw [hs.count]
        exact Finset.sum_nonneg fun q _ => by split <;> omega
      omega
  | called p b hsame hpc hp ha =>
    have hadm : ∀ q, (t.pc q).admitted = (s.pc q).admitted := fun q => by
      rw [hpc, State.goto_flag Pc.admitted (by rw [hp]; rfl)]
    have ho : t.log.outstanding = s.log.outstanding := by rw [hs.count, ht.count]; simp only [hadm]
    have hr : ∑ q, reserve t q = ∑ q, reserve s q :=
      Finset.sum_congr rfl fun q _ => reserve_congr hsame hadm q
    exact ⟨e, he, by rwa [hr, hsame.lh], by rwa [hr, hsame.lh, ho]⟩
  | wrote p b hpc hp hlh hid hn hcs hhist =>
    have hadm : ∀ q, (t.pc q).admitted = (s.pc q).admitted := fun q => by
      rw [hpc, State.goto_flag Pc.admitted (by rw [hp]; rfl)]
    have ho : t.log.outstanding = s.log.outstanding := by rw [hs.count, ht.count]; simp only [hadm]
    have hpa : (s.pc p).admitted = true := by rw [hp]; rfl
    have hsum : ∑ q, reserve t q = ∑ q, reserve s q - reserve s p + reserve t p := by
      refine sum_eq_of_eq_off p fun q hq => ?_
      unfold reserve
      rw [hadm, written_write hid hhist]
      split_ifs with hqa hid'
      · exact absurd (hh.id_inj q p hqa hpa hid') hq
      · rfl
      · rfl
    have hroom' : (t.log.lh.length : ℤ) + reserve t p ≤ s.log.lh.length + reserve s p := by
      simp only [reserve, hadm, hpa, if_true, written_write hid hhist, hlh]
      by_cases hmem : b ∈ s.log.lh
      · have := Finset.card_le_card (Finset.subset_insert b (s.written p))
        simp only [hmem, if_true]
        omega
      · have hnew : b ∉ s.written p := fun hb' => hmem (hb.logged p hpa b hb')
        simp only [hmem, if_false, List.length_append, List.length_singleton,
          Finset.card_insert_of_notMem hnew]
        push_cast
        omega
    refine ⟨e, he, by rw [hsum]; omega, ?_⟩
    rw [hsum, ho]
    omega
  | ended p c hsame hpc hp hc hc' =>
    have hpa : (s.pc p).admitted = true := by rw [hp]; rfl
    have hzero : reserve t p = 0 := by simp [reserve, hpc, hc]
    have hone := hb.le_reserve hK p
    rw [if_pos hpa] at hone
    have hsum : ∑ q, reserve t q = ∑ q, reserve s q - reserve s p := by
      rw [sum_eq_of_eq_off (f := reserve t) (g := reserve s) p, hzero, add_zero]
      intro q hq
      simp [reserve, hpc, hq, written_congr hsame.opId hsame.history]
    have ho := hcount p c hpc
    rw [if_pos hpa, hc] at ho
    refine ⟨e + 1, by omega, by rw [hsum, hsame.lh]; omega, ?_⟩
    simp only [Bool.false_eq_true, if_false] at ho
    rw [hsum, hsame.lh, ho]
    omega
  | cleared p hpc hp hlh hid hn hcs hhist =>
    have hno := hs.quiet (hs.flag.mpr ⟨p, by rw [hp]; rfl⟩)
    have hzero : ∑ q, reserve t q = 0 := Finset.sum_eq_zero fun q _ => by
      unfold reserve
      rw [hpc, State.goto_flag Pc.admitted (by rw [hp]; rfl), hno q]
      simp
    refine ⟨0, le_rfl, ?_⟩
    simp [hzero, hlh]

theorem Room.reachable {size : ℤ} (hK : K < maxOpBlocks)
    (h : (protocol N size (withinBudget K)).Reachable s) : Room s :=
  h.invariant (fun _ => initial) fun s t hr hs (hst : _ ∧ Step (withinBudget K) s t) =>
    hs.step hK (.reachable hr) (.step (.reachable hr) hst.2) (.reachable hr) (.reachable hr) hst.2

theorem Room.lh_length (h : Room s) (hK : K < maxOpBlocks) (hs : Control s) (hb : Budget K s) :
    (s.log.lh.length : ℤ) < nlog - 1 := by
  obtain ⟨e, he, hroom, htwo⟩ := h
  have hle : s.log.outstanding ≤ ∑ q, reserve s q := by
    rw [hs.count]
    exact Finset.sum_le_sum fun q _ => hb.le_reserve hK q
  have hnn : 0 ≤ s.log.outstanding := by
    rw [hs.count]
    exact Finset.sum_nonneg fun q _ => by split <;> omega
  have hM := maxOpBlocks_eq
  have hL := logSize_eq
  have hn := nlog_eq
  omega

theorem no_big_transaction (hK : K < maxOpBlocks)
    (h : (protocol N nlog (withinBudget K)).Reachable s) :
    s.panicked ≠ some "too big a transaction" := by
  have hsize : ∀ s, (protocol N nlog (withinBudget K)).Reachable s → s.log.size = nlog := by
    intro s h
    refine h.invariant (I := fun s => s.log.size = (nlog : ℤ))
      (fun s (hs : Initial _ s) => by simp [hs.log]) ?_
    rintro s t hr hs ⟨-, hst⟩
    cases hst with
    | write p b l pin hp hw =>
      obtain ⟨-, -, rfl, -⟩ := logWrite_ok hw
      exact hs
    | endLast p l hp he =>
      obtain ⟨-, -, rfl⟩ := endOp_ok he
      exact hs
    | endMore p l hp he =>
      obtain ⟨-, -, rfl⟩ := endOp_ok he
      exact hs
    | wakeOne p k hp hk => simpa using hs
    | _ => exact hs
  refine h.invariant (I := fun s => s.panicked ≠ some "too big a transaction")
    (fun s (hs : Initial _ s) => by simp [hs.panicked]) ?_
  rintro s t hr hs ⟨hn, hst⟩
  cases hst with
  | writePanic p b msg hp hw =>
    rcases logWrite_error hw with ⟨-, hbig⟩ | ⟨rfl, -⟩
    · have := (Room.reachable hK hr).lh_length hK (.reachable hr) (.reachable hr)
      rw [hsize s hr] at hbig
      simp only [logSize_eq, nlog_eq] at hbig this
      omega
    · simp
  | endPanic p msg hp he =>
    have := (Control.reachable hr).not_committing (p := p) (by rw [hp]; rfl)
    simp [endOp_error he] at this
  | wakeOne p k hp hk => unfold State.wake; split <;> exact hs
  | _ => exact hs

/-- A state in which process `p` is inside an operation and can call `log_write`. -/
structure Ready (s : State N) (p : Fin N) : Prop where
  pc : s.pc p = .op
  lock : s.lock = none
  panicked : s.panicked = none
  size : s.log.size = nlog
  outstanding : 1 ≤ s.log.outstanding

/-- The state after `p` has logged the new block `b`. -/
def State.record (s : State N) (p : Fin N) (b : ℕ) : State N :=
  { s with
    log := { s.log with lh := s.log.lh ++ [b] }
    history := s.history ++ [⟨s.opId p, s.commits.length, b⟩] }

theorem Ready.record {p q : Fin N} (h : Ready s p) (b : ℕ) : Ready (s.record q b) p :=
  ⟨h.pc, h.lock, h.panicked, h.size, h.outstanding⟩

theorem Ready.run_held {p : Fin N} (h : Ready s p) {b : ℕ} (hb : withinBudget K s p b) :
    (protocol N nlog (withinBudget K)).Run s { s.goto p (.writeHeld b) with lock := some p } := by
  have h1 := System.Run.single (S := protocol N nlog (withinBudget K))
    ⟨h.panicked, Step.callWrite p b h.pc hb⟩
  have h2 := h1.tail ⟨h.panicked, Step.acquire p (.writeHeld b) (by simp [Pc.acquired]) h.lock⟩
  convert h2 using 1
  simp [State.goto]

theorem Ready.run_record {p : Fin N} (h : Ready s p) {b : ℕ} (hb : withinBudget K s p b)
    (hnew : b ∉ s.log.lh) (hlen : s.log.lh.length + 1 < nlog) :
    (protocol N nlog (withinBudget K)).Run s (s.record p b) := by
  have hN := nlog_eq
  have hL := logSize_eq
  have hw : logWrite s.log b = .ok ({ s.log with lh := s.log.lh ++ [b] }, true) := by
    have hout := h.outstanding
    unfold logWrite
    rw [if_neg (by rw [h.size]; omega), if_neg (by omega), if_neg hnew]
  have h3 := (h.run_held hb).tail ⟨h.panicked, Step.write p b _ _ (by simp) hw⟩
  convert h3 using 1
  have hpc : s.pc = Function.update s.pc p .op := by rw [← h.pc, Function.update_eq_self]
  simp [State.record, State.goto, ← hpc, h.lock]

theorem card_written_record (s : State N) (p : Fin N) (b : ℕ) :
    ((s.record p b).written p).card ≤ (s.written p).card + 1 := by
  rw [written_write (s := s) (t := s.record p b) rfl rfl, if_pos rfl]
  exact Finset.card_insert_le _ _

theorem Ready.run_records {p : Fin N} (h : Ready s p) {bs : List ℕ} (hbs : bs.Nodup)
    (hnew : ∀ b ∈ bs, b ∉ s.log.lh) (hlen : s.log.lh.length + bs.length < nlog)
    (hcard : (s.written p).card + bs.length ≤ K) :
    (protocol N nlog (withinBudget K)).Run s (bs.foldl (State.record · p) s) := by
  induction bs generalizing s with
  | nil => exact .refl
  | cons b bs ih =>
    obtain ⟨hb, hbs⟩ := List.nodup_cons.mp hbs
    simp only [List.length_cons] at hlen hcard
    have hin : withinBudget K s p b := (Finset.card_insert_le _ _).trans (by omega)
    have h1 := h.run_record hin (hnew b (by simp)) (by omega)
    have hc := card_written_record s p b
    refine h1.trans (ih (h.record b) hbs ?_ ?_ (by omega))
    · intro x hx
      have hxb : x ≠ b := fun e => hb (e ▸ hx)
      simpa [State.record, hxb] using hnew x (by simp [hx])
    · simp only [State.record, List.length_append, List.length_singleton]
      omega

theorem lh_records (p : Fin N) (bs : List ℕ) (s : State N) :
    (bs.foldl (State.record · p) s).log.lh = s.log.lh ++ bs := by
  induction bs generalizing s with
  | nil => simp
  | cons b bs ih => simp [ih, State.record]

theorem opId_records (p : Fin N) (bs : List ℕ) (s : State N) :
    (bs.foldl (State.record · p) s).opId = s.opId := by
  induction bs generalizing s with
  | nil => rfl
  | cons b bs ih => exact ih _

theorem Ready.records {p q : Fin N} (h : Ready s p) (bs : List ℕ) :
    Ready (bs.foldl (State.record · q) s) p := by
  induction bs generalizing s with
  | nil => exact h
  | cons b bs ih => exact ih (h.record b)

theorem written_records {p q : Fin N} (hq : s.opId q ≠ s.opId p) (bs : List ℕ) :
    (bs.foldl (State.record · p) s).written q = s.written q := by
  induction bs generalizing s with
  | nil => rfl
  | cons b bs ih =>
    rw [List.foldl_cons, ih (s := s.record p b) hq, written_write (s := s) (t := s.record p b) rfl rfl, if_neg hq]

theorem card_written_records (p : Fin N) (bs : List ℕ) (s : State N) :
    ((bs.foldl (State.record · p) s).written p).card ≤ (s.written p).card + bs.length := by
  induction bs generalizing s with
  | nil => exact le_rfl
  | cons b bs ih =>
    have h1 := ih (s.record p b)
    have h2 := card_written_record s p b
    simp only [List.foldl_cons, List.length_cons]
    omega

theorem Ready.log {p : Fin N} (h : Ready s p) (hr : (protocol N nlog (withinBudget K)).Reachable s)
    (bs : List ℕ) (hbs : bs.Nodup) (hnew : ∀ b ∈ bs, b ∉ s.log.lh)
    (hlen : s.log.lh.length + bs.length < nlog) (hcard : (s.written p).card + bs.length ≤ K) :
    ∃ t, (protocol N nlog (withinBudget K)).Reachable t ∧ (∀ q, Ready s q → Ready t q) ∧
      t.log.lh = s.log.lh ++ bs ∧ t.opId = s.opId ∧
      (∀ q, s.opId q ≠ s.opId p → t.written q = s.written q) ∧
      (t.written p).card ≤ (s.written p).card + bs.length :=
  ⟨_, hr.run (h.run_records hbs hnew hlen hcard), fun _ hq => hq.records bs, lh_records p bs s,
    opId_records p bs s, fun _ hq => written_records hq bs, card_written_records p bs s⟩

theorem three_ready : ∃ s : State 3, (protocol 3 nlog (withinBudget K)).Reachable s ∧
    (∀ p, Ready s p) ∧ s.log.lh = [] ∧ s.history = [] ∧ s.opId = Fin.val := by
  have h0 : (protocol 3 nlog (withinBudget K)).Reachable (boot 3 nlog) := .init (boot_initial 3 nlog)
  have h1 := h0.step ⟨rfl, .beginOp 0 rfl⟩
  have h2 := h1.step ⟨rfl, .acquire 0 _ rfl rfl⟩
  have h3 := h2.step ⟨rfl, .enter 0 rfl rfl⟩
  have h4 := h3.step ⟨rfl, .beginOp 1 rfl⟩
  have h5 := h4.step ⟨rfl, .acquire 1 _ rfl rfl⟩
  have h6 := h5.step ⟨rfl, .enter 1 rfl rfl⟩
  have h7 := h6.step ⟨rfl, .beginOp 2 rfl⟩
  have h8 := h7.step ⟨rfl, .acquire 2 _ rfl rfl⟩
  have h9 := h8.step ⟨rfl, .enter 2 rfl rfl⟩
  refine ⟨_, h9, fun p => ⟨?_, rfl, rfl, rfl, by decide⟩, rfl, rfl, ?_⟩
  · fin_cases p <;> rfl
  · funext p
    fin_cases p <;> rfl

theorem big_transaction (hK : maxOpBlocks ≤ K) : ∃ s : State 3,
    (protocol 3 nlog (withinBudget K)).Reachable s ∧
      s.panicked = some "too big a transaction" := by
  have hM := maxOpBlocks_eq
  have hN := nlog_eq
  obtain ⟨s₀, hr, hready, hlh, hhist, hid⟩ := three_ready (K := K)
  have hw : ∀ p, s₀.written p = ∅ := fun p => by simp [State.written, hhist]
  have hne : ∀ p q : Fin 3, p ≠ q → s₀.opId p ≠ s₀.opId q := fun p q h => by
    simpa [hid] using fun e => h (Fin.ext e)
  -- each process logs ten blocks of its own, the last one only nine
  obtain ⟨s₁, hr₁, hready₁, hl₁, hid₁, hw₁, -⟩ := (hready 0).log hr (List.range' 0 10)
    (List.nodup_range' ..) (by simp [hlh]) (by simp [hlh]) (by rw [hw]; simpa using hK)
  rw [hlh, List.nil_append] at hl₁
  obtain ⟨s₂, hr₂, hready₂, hl₂, hid₂, hw₂, -⟩ := (hready₁ 1 (hready 1)).log hr₁
    (List.range' 10 10) (List.nodup_range' ..) (by rw [hl₁]; decide) (by rw [hl₁]; decide)
    (by rw [hw₁ 1 (hne 1 0 (by decide)), hw]; simpa using hK)
  have he₂ : s₂.written 2 = ∅ := by
    rw [hw₂ 2 (by rw [hid₁]; exact hne 2 1 (by decide)), hw₁ 2 (hne 2 0 (by decide)), hw]
  rw [hl₁] at hl₂
  obtain ⟨s₃, hr₃, hready₃, hl₃, -, -, hc₃⟩ := (hready₂ 2 (hready₁ 2 (hready 2))).log hr₂
    (List.range' 20 9) (List.nodup_range' ..) (by rw [hl₂]; decide) (by rw [hl₂]; decide)
    (by rw [he₂]; simp; omega)
  rw [hl₂] at hl₃
  rw [he₂, Finset.card_empty, List.length_range'] at hc₃
  have hlast := hready₃ 2 (hready₂ 2 (hready₁ 2 (hready 2)))
  have hin : withinBudget K s₃ 2 29 := (Finset.card_insert_le _ _).trans (by omega)
  have hbig : logWrite s₃.log 29 = .error "too big a transaction" := by
    unfold logWrite
    rw [if_pos]
    right
    rw [hl₃, hlast.size]
    decide
  have hend := (hlast.run_held hin).tail
    ⟨hlast.panicked, Step.writePanic 2 29 _ (by simp) hbig⟩
  exact ⟨_, hr₃.run hend, rfl⟩

/-- On the log that mkfs lays out no run panics in `log_write` exactly when operations are held to
fewer than `MAXOPBLOCKS` distinct blocks. -/
theorem admission_sufficient_iff (K : ℕ) :
    (∀ (N : ℕ) (s : State N), (protocol N nlog (withinBudget K)).Reachable s →
      s.panicked ≠ some "too big a transaction") ↔ K < maxOpBlocks := by
  constructor
  · intro h
    by_contra hK
    obtain ⟨s, hr, hp⟩ := big_transaction (not_lt.mp hK)
    exact h 3 s hr hp
  · exact fun hK N s h => no_big_transaction hK h

/-- The budget that `begin_op` reserves is one block too large. -/
theorem admission_insufficient : ¬ ∀ (N : ℕ) (s : State N),
    (protocol N nlog (withinBudget maxOpBlocks)).Reachable s →
      s.panicked ≠ some "too big a transaction" := by
  intro h
  obtain ⟨s, hr, hp⟩ := big_transaction le_rfl
  exact h 3 s hr hp

end Xv6.Log
