import Xv6.Console.Discipline

/-! What the calls of `consoleread` deliver: the committed bytes, in order, each to one call. -/
namespace Xv6.Console

variable {ι : Type} {s t : State ι} {i : ι} {k : Call}

namespace State

def takenBy (s : State ι) (id : ℕ) : List UInt8 :=
  (s.taken.filter fun e => e.1 = id).map Prod.snd

def active (s : State ι) (i : ι) : Option Call := (s.pc i).call

theorem takenBy_fetch (id : ℕ) : (s.fetch k).takenBy id =
    s.takenBy id ++ if k.id = id then [s.cons.get s.cons.r] else [] := by
  unfold takenBy fetch
  rw [List.filter_append, List.map_append]
  by_cases h : k.id = id
  · simp [h]
  · simp [h]

end State

/-- A call in its loop has copied what it has taken out, and has not met an end. -/
structure Call.Going (k : Call) (taken : List UInt8) : Prop where
  taken : taken = k.got
  count : k.n + k.got.length = k.target
  pos : 0 < k.target
  not_eof : ctrlD ∉ k.got
  not_line : newline ∉ k.got

/-- What a call has returned. `committed` is all that has been committed. -/
inductive Ended.Sound (committed : List UInt8) : Ended → List UInt8 → Prop
  /-- A line, or the end of one. -/
  | line (id target n pos bytes) (hcount : n + (bytes.length + 1) = target)
      (hd : ctrlD ∉ bytes) (hl : newline ∉ bytes) :
      Sound committed ⟨⟨id, target, n, bytes ++ [newline]⟩, .line, pos⟩ (bytes ++ [newline])
  /-- As many bytes as were asked for. -/
  | full (id pos bytes) (hpos : 0 < bytes.length) (hd : ctrlD ∉ bytes) (hl : newline ∉ bytes) :
      Sound committed ⟨⟨id, bytes.length, 0, bytes⟩, .full, pos⟩ bytes
  /-- No bytes, at a ^D that has been taken out. -/
  | eof (id target pos) (hpos : 0 < target) :
      Sound committed ⟨⟨id, target, target, []⟩, .eof, pos⟩ [ctrlD]
  /-- Some bytes, before a ^D that stays. -/
  | kept (id target n pos bytes) (hcount : n + bytes.length = target) (hpos : 0 < n)
      (hgot : bytes ≠ []) (hd : ctrlD ∉ bytes) (hl : newline ∉ bytes)
      (hnext : committed[pos]? = some ctrlD) :
      Sound committed ⟨⟨id, target, n, bytes⟩, .kept, pos⟩ bytes

/-- After a call that left a ^D, the next one to end takes it out and returns 0, unless it too has
delivered bytes before. -/
def Ended.Follows (a b : Ended) : Prop :=
  a.reason = .kept → (b.reason = .eof ∧ b.pos = a.pos + 1) ∨ (b.reason = .kept ∧ b.pos = a.pos)

/-- The indices, and the bytes that have been committed and not been taken out. -/
structure Stream (s : State ι) : Prop where
  ordered : s.cons.Ordered
  committed : s.committed = s.taken.map Prod.snd ++ s.cons.pending

structure Placed (s : State ι) : Prop where
  holder : ∀ i k, s.pc i = .loop k → s.lock = some i
  enter : ∀ i n, s.pc i = .enter n → 0 < n
  asleep : ∀ i k, s.pc i = .asleep k → 0 < k.n

/-- The calls are told apart by their numbers, and every byte has been taken out by one of them. -/
structure Numbered (s : State ι) : Prop where
  active_lt : ∀ i k, s.active i = some k → k.id < s.calls
  ended_lt : ∀ k ∈ s.ended, k.id < s.calls
  active_inj : ∀ i j k l, s.active i = some k → s.active j = some l → k.id = l.id → i = j
  active_ended : ∀ i k, s.active i = some k → ∀ l ∈ s.ended, l.id ≠ k.id
  ended_nodup : (s.ended.map fun k => k.id).Nodup
  owned : ∀ e ∈ s.taken,
    (∃ i k, s.active i = some k ∧ k.id = e.1) ∨ ∃ k ∈ s.ended, k.id = e.1

structure Delivered (s : State ι) : Prop where
  going : ∀ i k, s.active i = some k → k.Going (s.takenBy k.id)
  sound : ∀ k ∈ s.ended, k.Sound s.committed (s.takenBy k.id)
  follows : s.ended.IsChain Ended.Follows
  kept : ∀ k, s.ended.getLast? = some k → k.reason = .kept →
    s.taken.length = k.pos ∧ ∀ i l, s.pc i = .loop l → 0 < l.n

structure Inv (s : State ι) : Prop where
  stream : Stream s
  placed : Placed s
  numbered : Numbered s
  delivered : Delivered s

theorem Stream.fetch (h : Stream s) (he : s.cons.r ≠ s.cons.w) (k : Call) : Stream (s.fetch k) := by
  obtain ⟨ho, hp⟩ := h.ordered.fetch he
  refine ⟨ho, ?_⟩
  show s.committed = (s.taken ++ [(k.id, s.cons.get s.cons.r)]).map Prod.snd ++ _
  rw [h.committed, hp, List.map_append, List.append_assoc]
  rfl

theorem Stream.next (h : Stream s) (he : s.cons.r ≠ s.cons.w) :
    s.committed[s.taken.length]? = some (s.cons.get s.cons.r) := by
  have hlen : (s.taken.map Prod.snd).length = s.taken.length := List.length_map _
  rw [h.committed, (h.ordered.fetch he).2, List.getElem?_append_right (by omega), hlen, Nat.sub_self]
  rfl

theorem Numbered.congr (h : Numbered s) (ha : t.active = s.active) (he : t.ended = s.ended)
    (hc : t.calls = s.calls) (ht : t.taken = s.taken) : Numbered t := by
  obtain ⟨h1, h2, h3, h4, h5, h6⟩ := h
  refine ⟨?_, ?_, ?_, ?_, ?_, ?_⟩
  all_goals simp only [ha, he, hc, ht]
  all_goals assumption

theorem Numbered.fetch (h : Numbered s) (ha : s.active i = some k) : Numbered (s.fetch k) := by
  refine ⟨h.active_lt, h.ended_lt, h.active_inj, h.active_ended, h.ended_nodup, fun e he => ?_⟩
  rcases List.mem_append.mp he with he | he
  · exact h.owned e he
  · rw [List.mem_singleton] at he
    exact Or.inl ⟨i, k, ha, by rw [he]⟩

theorem Placed.free (h : Placed s) (hl : s.lock = none) (j : ι) (m : Call) : s.pc j ≠ .loop m := by
  intro hm
  have := h.holder j m hm
  rw [hl] at this
  cases this

theorem Placed.alone (h : Placed s) (hk : s.pc i = .loop k) {j : ι} {m : Call}
    (hm : s.pc j = .loop m) : j = i := by
  have hi := h.holder i k hk
  rw [h.holder j m hm] at hi
  exact Option.some.inj hi

theorem Ended.Sound.mono {committed committed' taken : List UInt8} {x : Ended}
    (h : x.Sound committed taken) (hc : committed <+: committed') : x.Sound committed' taken := by
  cases h with
  | line id target n pos bytes hcount hd hl => exact .line _ _ _ _ _ hcount hd hl
  | full id pos bytes hpos hd hl => exact .full _ _ _ hpos hd hl
  | eof id target pos hpos => exact .eof _ _ _ hpos
  | kept id target n pos bytes hcount hpos hgot hd hl hnext =>
    refine .kept _ _ _ _ _ hcount hpos hgot hd hl ?_
    obtain ⟨rest, rfl⟩ := hc
    have hlt := (List.getElem?_eq_some_iff.mp hnext).1
    rw [List.getElem?_append_left hlt, hnext]

theorem Ended.Sound.next {committed taken : List UInt8} {x : Ended} (h : x.Sound committed taken)
    (hr : x.reason = .kept) : committed[x.pos]? = some ctrlD := by
  cases h with
  | kept id target n pos bytes hcount hpos hgot hd hl hnext => exact hnext
  | _ => cases hr

theorem Delivered.mono (h : Delivered s) (ha : t.active = s.active) (he : t.ended = s.ended)
    (ht : t.taken = s.taken) (hc : s.committed <+: t.committed)
    (hpc : ∀ i l, t.pc i = .loop l → s.pc i = .loop l ∨ 0 < l.n) : Delivered t := by
  have hby : t.takenBy = s.takenBy := by
    funext id
    rw [State.takenBy, State.takenBy, ht]
  refine ⟨fun j m hm => ?_, fun x hx => ?_, ?_, fun x hx hr => ?_⟩
  · rw [hby]
    exact h.going j m (ha ▸ hm)
  · rw [hby]
    exact (h.sound x (he ▸ hx)).mono hc
  · rw [he]
    exact h.follows
  · rw [he] at hx
    obtain ⟨hlen, hn⟩ := h.kept x hx hr
    refine ⟨by rw [ht, hlen], fun j l hl => ?_⟩
    rcases hpc j l hl with hl | hl
    · exact hn j l hl
    · exact hl

theorem Numbered.takenBy_fresh (h : Numbered s) : s.takenBy s.calls = [] := by
  unfold State.takenBy
  rw [List.map_eq_nil_iff, List.filter_eq_nil_iff]
  intro e he
  have hlt : e.1 < s.calls := by
    rcases h.owned e he with ⟨j, m, hm, hid⟩ | ⟨x, hx, hid⟩
    · exact hid ▸ h.active_lt j m hm
    · exact hid ▸ h.ended_lt x hx
  simp only [decide_eq_true_eq]
  omega

variable [DecidableEq ι]

theorem active_next (l : Call) :
    (s.next i l).active = Function.update s.active i (some l) := by
  funext j
  by_cases hj : j = i
  · simp [State.active, State.next, hj, Pc.call]
  · simp [State.active, State.next, hj]

theorem active_finish (l : Call) (reason : Reason) :
    (s.finish i l reason).active = Function.update s.active i none := by
  funext j
  by_cases hj : j = i
  · simp [State.active, State.finish, hj, Pc.call]
  · simp [State.active, State.finish, hj]

theorem update_some {f : ι → Option Call} {v : Option Call} {j : ι} {m : Call}
    (h : Function.update f i v j = some m) : (j = i ∧ v = some m) ∨ (j ≠ i ∧ f j = some m) := by
  by_cases hj : j = i
  · subst hj
    exact Or.inl ⟨rfl, by rwa [Function.update_self] at h⟩
  · exact Or.inr ⟨hj, by rwa [Function.update_of_ne hj] at h⟩

theorem Numbered.next (h : Numbered s) (ha : s.active i = some k) {l : Call} (hl : l.id = k.id) :
    Numbered (s.next i l) := by
  have hcases : ∀ {j m}, (s.next i l).active j = some m →
      ∃ m', s.active j = some m' ∧ m.id = m'.id := fun {j m} hm => by
    rw [active_next] at hm
    rcases update_some hm with ⟨rfl, hv⟩ | ⟨-, hm⟩
    · cases hv
      exact ⟨k, ha, hl⟩
    · exact ⟨m, hm, rfl⟩
  refine ⟨fun j m hm => ?_, h.ended_lt, fun j j' m m' hm hm' he => ?_, fun j m hm x hx => ?_,
    h.ended_nodup, fun e he => ?_⟩
  · obtain ⟨m', hm', hid⟩ := hcases hm
    rw [hid]
    exact h.active_lt j m' hm'
  · obtain ⟨n, hn, hid⟩ := hcases hm
    obtain ⟨n', hn', hid'⟩ := hcases hm'
    exact h.active_inj j j' n n' hn hn' (by rw [← hid, ← hid', he])
  · obtain ⟨m', hm', hid⟩ := hcases hm
    rw [hid]
    exact h.active_ended j m' hm' x hx
  · rcases h.owned e he with ⟨j, m, hm, hid⟩ | hend
    · refine Or.inl ?_
      by_cases hj : j = i
      · refine ⟨i, l, by rw [active_next, Function.update_self], ?_⟩
        rw [hj, ha] at hm
        rw [hl, Option.some.inj hm, hid]
      · exact ⟨j, m, by rw [active_next, Function.update_of_ne hj, hm], hid⟩
    · exact Or.inr hend

theorem Numbered.finish (h : Numbered s) (ha : s.active i = some k) {l : Call} (hl : l.id = k.id)
    (reason : Reason) : Numbered (s.finish i l reason) := by
  have hcases : ∀ {j m}, (s.finish i l reason).active j = some m → j ≠ i ∧ s.active j = some m :=
    fun {j m} hm => by
      rw [active_finish] at hm
      rcases update_some hm with ⟨-, hv⟩ | hm
      · cases hv
      · exact hm
  have hended : ∀ {x}, x ∈ (s.finish i l reason).ended → x ∈ s.ended ∨ x.id = k.id := fun {x} hx => by
    rcases List.mem_append.mp hx with hx | hx
    · exact Or.inl hx
    · rw [List.mem_singleton] at hx
      exact Or.inr (by rw [hx]; exact hl)
  refine ⟨fun j m hm => h.active_lt j m (hcases hm).2, fun x hx => ?_,
    fun j j' m m' hm hm' => h.active_inj j j' m m' (hcases hm).2 (hcases hm').2,
    fun j m hm x hx => ?_, ?_, fun e he => ?_⟩
  · rcases hended hx with hx | hid
    · exact h.ended_lt x hx
    · rw [hid]
      exact h.active_lt i k ha
  · obtain ⟨hj, hm⟩ := hcases hm
    rcases hended hx with hx | hid
    · exact h.active_ended j m hm x hx
    · rw [hid]
      exact fun he => hj (h.active_inj j i m k hm ha he.symm)
  · show ((s.ended ++ [(⟨l, reason, s.taken.length⟩ : Ended)]).map fun x => x.id).Nodup
    rw [List.map_append, List.nodup_append]
    refine ⟨h.ended_nodup, List.nodup_singleton _, fun a ha' b hb => ?_⟩
    obtain ⟨x, hx, rfl⟩ := List.mem_map.mp ha'
    rw [List.map_singleton, List.mem_singleton] at hb
    rw [hb, hl]
    exact h.active_ended i k ha x hx
  · rcases h.owned e he with ⟨j, m, hm, hid⟩ | ⟨x, hx, hid⟩
    · by_cases hj : j = i
      · rw [hj, ha] at hm
        refine Or.inr ⟨⟨l, reason, s.taken.length⟩, ?_, ?_⟩
        · exact List.mem_append_right _ (List.mem_singleton_self _)
        · rw [← hid, ← Option.some.inj hm]
          exact hl
      · exact Or.inl ⟨j, m, by rw [active_finish, Function.update_of_ne hj, hm], hid⟩
    · exact Or.inr ⟨x, List.mem_append_left _ hx, hid⟩

theorem Numbered.acquire (h : Numbered s) (ha : s.active i = none) (n : ℕ) :
    Numbered ({ s with lock := some i, calls := s.calls + 1 }.next i ⟨s.calls, n, n, []⟩) := by
  have hcases : ∀ {j m}, Function.update s.active i (some ⟨s.calls, n, n, []⟩) j = some m →
      (j = i ∧ m.id = s.calls) ∨ (s.active j = some m ∧ m.id < s.calls) := fun {j m} hm => by
    rcases update_some hm with ⟨hj, hv⟩ | ⟨-, hm⟩
    · cases hv
      exact Or.inl ⟨hj, rfl⟩
    · exact Or.inr ⟨hm, h.active_lt j m hm⟩
  refine ⟨fun j m hm => ?_, fun x hx => Nat.lt_succ_of_lt (h.ended_lt x hx),
    fun j j' m m' hm hm' he => ?_, fun j m hm x hx => ?_, h.ended_nodup, fun e he => ?_⟩
  · rw [active_next] at hm
    show m.id < s.calls + 1
    rcases hcases hm with ⟨-, hid⟩ | ⟨-, hlt⟩ <;> omega
  · rw [active_next] at hm hm'
    rcases hcases hm with ⟨hj, hid⟩ | ⟨hm, hlt⟩ <;> rcases hcases hm' with ⟨hj', hid'⟩ | ⟨hm', hlt'⟩
    · rw [hj, hj']
    · omega
    · omega
    · exact h.active_inj j j' m m' hm hm' he
  · rw [active_next] at hm
    have hlt := h.ended_lt x hx
    rcases hcases hm with ⟨-, hid⟩ | ⟨hm, -⟩
    · omega
    · exact h.active_ended j m hm x hx
  · rcases h.owned e he with ⟨j, m, hm, hid⟩ | hend
    · refine Or.inl ⟨j, m, ?_, hid⟩
      have hj : j ≠ i := fun hj => by
        rw [hj, ha] at hm
        cases hm
      rw [active_next, Function.update_of_ne hj]
      exact hm
    · exact Or.inr hend

theorem Placed.update (h : Placed s) {p : Pc} (hpc : t.pc = Function.update s.pc i p)
    (hother : ∀ j m, j ≠ i → s.pc j = .loop m → t.lock = some j)
    (hloop : ∀ m, p = .loop m → t.lock = some i) (henter : ∀ n, p = .enter n → 0 < n)
    (hasleep : ∀ m, p = .asleep m → 0 < m.n) : Placed t := by
  refine ⟨fun j m hm => ?_, fun j n hn => ?_, fun j m hm => ?_⟩
  all_goals by_cases hj : j = i
  · subst hj
    exact hloop m (by rwa [hpc, Function.update_self] at hm)
  · exact hother j m hj (by rwa [hpc, Function.update_of_ne hj] at hm)
  · subst hj
    exact henter n (by rwa [hpc, Function.update_self] at hn)
  · exact h.enter j n (by rwa [hpc, Function.update_of_ne hj] at hn)
  · subst hj
    exact hasleep m (by rwa [hpc, Function.update_self] at hm)
  · exact h.asleep j m (by rwa [hpc, Function.update_of_ne hj] at hm)

theorem Delivered.acquire (h : Delivered s) (hnum : Numbered s) {n : ℕ} (hn : 0 < n) :
    Delivered ({ s with lock := some i, calls := s.calls + 1 }.next i ⟨s.calls, n, n, []⟩) := by
  refine ⟨fun j m hm => ?_, h.sound, h.follows, fun x hx hr => ?_⟩
  · rw [active_next] at hm
    rcases update_some hm with ⟨-, hv⟩ | ⟨-, hm⟩
    · cases hv
      exact ⟨hnum.takenBy_fresh, rfl, hn, List.not_mem_nil, List.not_mem_nil⟩
    · exact h.going j m hm
  · obtain ⟨hlen, hpos⟩ := h.kept x hx hr
    refine ⟨hlen, fun j l hl => ?_⟩
    by_cases hj : j = i
    · subst hj
      simp only [State.next, Function.update_self, Pc.loop.injEq] at hl
      exact hl ▸ hn
    · simp only [State.next, Function.update_of_ne hj] at hl
      exact hpos j l hl

theorem Delivered.finish {l : Call} {reason : Reason}
    (going : ∀ j m, j ≠ i → s.active j = some m → m.Going (s.takenBy m.id))
    (sound : ∀ x ∈ s.ended, x.Sound s.committed (s.takenBy x.id))
    (follows : s.ended.IsChain Ended.Follows)
    (new : Ended.Sound s.committed ⟨l, reason, s.taken.length⟩ (s.takenBy l.id))
    (last : ∀ a, s.ended.getLast? = some a → a.Follows ⟨l, reason, s.taken.length⟩)
    (alone : ∀ j m, s.pc j = .loop m → j = i) : Delivered (s.finish i l reason) := by
  refine ⟨fun j m hm => ?_, fun x hx => ?_, ?_, fun x hx hr => ?_⟩
  · rw [active_finish] at hm
    rcases update_some hm with ⟨-, hv⟩ | ⟨hj, hm⟩
    · cases hv
    · exact going j m hj hm
  · rcases List.mem_append.mp hx with hx | hx
    · exact sound x hx
    · rw [List.mem_singleton] at hx
      subst hx
      exact new
  · refine List.isChain_append.mpr ⟨follows, List.isChain_singleton _, fun a ha b hb => ?_⟩
    rw [List.head?_cons, Option.mem_some_iff] at hb
    exact hb ▸ last a ha
  · have hx' : (⟨l, reason, s.taken.length⟩ : Ended) = x := by
      simpa [State.finish] using hx
    subst hx'
    refine ⟨rfl, fun j m hm => ?_⟩
    by_cases hj : j = i
    · subst hj
      simp only [State.finish, Function.update_self] at hm
      cases hm
    · simp only [State.finish, Function.update_of_ne hj] at hm
      exact absurd (alone j m hm) hj

end Xv6.Console
