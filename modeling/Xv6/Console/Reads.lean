import Xv6.Console.Delivery

/-! Every step of the console keeps the line discipline. -/
namespace Xv6.Console

variable {ι : Type} {s t : State ι} {i : ι} {k : Call}

theorem active_loop (h : s.pc i = .loop k) : s.active i = some k := by
  rw [State.active, h]
  rfl

theorem Numbered.takenBy_fetch (h : Numbered s) (ha : s.active i = some k) {id : ℕ}
    (hid : (∃ j m, j ≠ i ∧ s.active j = some m ∧ m.id = id) ∨ ∃ x ∈ s.ended, x.id = id) :
    (s.fetch k).takenBy id = s.takenBy id := by
  have hne : k.id ≠ id := by
    rintro rfl
    rcases hid with ⟨j, m, hj, hm, he⟩ | ⟨x, hx, he⟩
    · exact hj (h.active_inj j i m k hm ha he)
    · exact h.active_ended i k ha x hx he
  rw [State.takenBy_fetch, if_neg hne, List.append_nil]

theorem Inv.next_of_kept (h : Inv s) (he : s.cons.r ≠ s.cons.w) {a : Ended}
    (ha : s.ended.getLast? = some a) (hr : a.reason = .kept) : s.cons.get s.cons.r = ctrlD := by
  have hlen := (h.delivered.kept a ha hr).1
  have hnext := h.stream.next he
  have hkept := (h.delivered.sound a (List.mem_of_getLast? ha)).next hr
  rw [hlen] at hnext
  exact Option.some.inj (hnext.symm.trans hkept)

/-- A call that takes out a byte of another kind is not the first after one that left a ^D. -/
theorem Inv.follows_of_ne (h : Inv s) (he : s.cons.r ≠ s.cons.w) (hc : s.cons.get s.cons.r ≠ ctrlD)
    {a b : Ended} (ha : s.ended.getLast? = some a) : a.Follows b :=
  fun hr => absurd (h.next_of_kept he ha hr) hc

theorem Initial.inv (h : Initial s) : Inv s := by
  obtain ⟨hrw, hwe⟩ := h.empty
  obtain ⟨hc, ht, he⟩ := h.history
  have hact : ∀ i, s.active i = none := fun i => by
    rw [State.active, h.pc i]
    rfl
  have hpc : ∀ {i p}, s.pc i = p → p = .idle := fun {i p} hp => by rw [← hp, h.pc i]
  refine ⟨⟨⟨?_, ?_⟩, ?_⟩, ⟨?_, ?_, ?_⟩, ⟨?_, ?_, ?_, ?_, ?_, ?_⟩, ⟨?_, ?_, ?_, ?_⟩⟩
  · rw [hwe]
  · rw [hrw, hwe, Lib.Ring.count_self]
    exact Nat.zero_le _
  · rw [hc, ht, Cons.pending, hrw]
    simp [Lib.Ring.entries]
  · exact fun _ _ hp => by cases hpc hp
  · exact fun _ _ hp => by cases hpc hp
  · exact fun _ _ hp => by cases hpc hp
  all_goals simp [hact, he, ht]

theorem Inv.intr (h : Inv s) (c : UInt8) : Inv (s.intr c) := by
  have hc := h.stream.ordered.consoleintr c
  refine ⟨⟨hc.ordered, ?_⟩, ⟨h.placed.holder, h.placed.enter, h.placed.asleep⟩,
    h.numbered.congr rfl rfl rfl rfl, ?_⟩
  · show s.committed ++ _ = _ ++ (s.cons.consoleintr c).pending
    rw [hc.pending, h.stream.committed, List.append_assoc]
    rfl
  · exact h.delivered.mono rfl rfl rfl (List.prefix_append _ _) fun _ _ hl => Or.inl hl

variable [DecidableEq ι]

theorem Inv.fetch_finish (h : Inv s) (hk : s.pc i = .loop k) (he : s.cons.r ≠ s.cons.w) {l : Call}
    {reason : Reason} (hid : l.id = k.id)
    (new : Ended.Sound s.committed ⟨l, reason, s.taken.length + 1⟩
      (k.got ++ [s.cons.get s.cons.r]))
    (last : ∀ a, s.ended.getLast? = some a → a.Follows ⟨l, reason, s.taken.length + 1⟩) :
    Inv ((s.fetch k).finish i l reason) := by
  have ha := active_loop hk
  have hlen : (s.fetch k).taken.length = s.taken.length + 1 := by simp [State.fetch]
  have hstream := h.stream.fetch he k
  refine ⟨⟨hstream.ordered, hstream.committed⟩, ?_, (h.numbered.fetch ha).finish ha hid reason, ?_⟩
  · exact h.placed.update (p := .idle) rfl (fun j m hj hm => absurd (h.placed.alone hk hm) hj)
      (fun _ hp => by cases hp) (fun _ hp => by cases hp) fun _ hp => by cases hp
  · apply Delivered.finish (s := s.fetch k)
    · intro j m hj hm
      rw [h.numbered.takenBy_fetch ha (Or.inl ⟨j, m, hj, hm, rfl⟩)]
      exact h.delivered.going j m hm
    · intro x hx
      rw [h.numbered.takenBy_fetch ha (Or.inr ⟨x, hx, rfl⟩)]
      exact h.delivered.sound x hx
    · exact h.delivered.follows
    · rw [hlen, hid, State.takenBy_fetch, if_pos rfl, (h.delivered.going i k ha).taken]
      exact new
    · rw [hlen]
      exact last
    · exact fun j m hm => h.placed.alone hk hm

theorem Inv.finish (h : Inv s) (hk : s.pc i = .loop k) {reason : Reason}
    (new : Ended.Sound s.committed ⟨k, reason, s.taken.length⟩ k.got)
    (last : ∀ a, s.ended.getLast? = some a → a.Follows ⟨k, reason, s.taken.length⟩) :
    Inv (s.finish i k reason) := by
  have ha := active_loop hk
  refine ⟨⟨h.stream.ordered, h.stream.committed⟩, ?_, h.numbered.finish ha rfl reason, ?_⟩
  · exact h.placed.update (p := .idle) rfl (fun j m hj hm => absurd (h.placed.alone hk hm) hj)
      (fun _ hp => by cases hp) (fun _ hp => by cases hp) fun _ hp => by cases hp
  · apply Delivered.finish
    · exact fun j m _ hm => h.delivered.going j m hm
    · exact h.delivered.sound
    · exact h.delivered.follows
    · rw [(h.delivered.going i k ha).taken]
      exact new
    · exact last
    · exact fun j m hm => h.placed.alone hk hm

theorem Inv.fetch_next (h : Inv s) (hk : s.pc i = .loop k) (hn : 0 < k.n)
    (he : s.cons.r ≠ s.cons.w) (hd : s.cons.get s.cons.r ≠ ctrlD)
    (hl : s.cons.get s.cons.r ≠ newline) :
    Inv ((s.fetch k).next i (k.push (s.cons.get s.cons.r))) := by
  have ha := active_loop hk
  have hgo := h.delivered.going i k ha
  have hstream := h.stream.fetch he k
  refine ⟨⟨hstream.ordered, hstream.committed⟩, ?_, (h.numbered.fetch ha).next ha rfl, ?_⟩
  · exact h.placed.update rfl (fun j m hj hm => absurd (h.placed.alone hk hm) hj)
      (fun _ _ => h.placed.holder i k hk) (fun _ hp => by cases hp) fun _ hp => by cases hp
  · refine ⟨fun j m hm => ?_, fun x hx => ?_, h.delivered.follows, fun x hx hr => ?_⟩
    · rw [active_next] at hm
      rcases update_some hm with ⟨-, hv⟩ | ⟨hj, hm⟩
      · cases hv
        show (k.push _).Going ((s.fetch k).takenBy k.id)
        rw [State.takenBy_fetch, if_pos rfl, hgo.taken]
        have hcount := hgo.count
        refine ⟨rfl, ?_, hgo.pos, ?_, ?_⟩
        · show k.n - 1 + (k.got ++ [_]).length = k.target
          rw [List.length_append, List.length_singleton]
          omega
        · show ctrlD ∉ k.got ++ [_]
          simp [hgo.not_eof, hd.symm]
        · show newline ∉ k.got ++ [_]
          simp [hgo.not_line, hl.symm]
      · show m.Going ((s.fetch k).takenBy m.id)
        rw [h.numbered.takenBy_fetch ha (Or.inl ⟨j, m, hj, hm, rfl⟩)]
        exact h.delivered.going j m hm
    · show x.Sound s.committed ((s.fetch k).takenBy x.id)
      rw [h.numbered.takenBy_fetch ha (Or.inr ⟨x, hx, rfl⟩)]
      exact h.delivered.sound x hx
    · exact absurd (h.next_of_kept he hx hr) hd

theorem Inv.move (h : Inv s) {p : Pc} {lock : Option ι} (hcall : p.call = s.active i)
    (hother : ∀ j m, j ≠ i → s.pc j = .loop m → lock = some j)
    (hloop : ∀ m, p = .loop m → lock = some i ∧ 0 < m.n) (henter : ∀ n, p = .enter n → 0 < n)
    (hasleep : ∀ m, p = .asleep m → 0 < m.n) :
    Inv { s with lock := lock, pc := Function.update s.pc i p } := by
  have hact : State.active { s with lock := lock, pc := Function.update s.pc i p } = s.active := by
    funext j
    by_cases hj : j = i
    · subst hj
      simp [State.active, hcall]
    · simp [State.active, hj]
  refine ⟨⟨h.stream.ordered, h.stream.committed⟩, ?_, h.numbered.congr hact rfl rfl rfl, ?_⟩
  · exact h.placed.update rfl hother (fun m hm => (hloop m hm).1) henter hasleep
  · refine h.delivered.mono hact rfl rfl (List.prefix_refl _) fun j l hl => ?_
    by_cases hj : j = i
    · subst hj
      simp only [Function.update_self] at hl
      exact Or.inr (hloop l hl).2
    · simp only [Function.update_of_ne hj] at hl
      exact Or.inl hl

/-- Each interrupt and each round of `consoleread` keeps the invariant. -/
theorem Step.inv (hst : Step s t) (h : Inv s) : Inv t := by
  cases hst with
  | intr c hl => exact h.intr c
  | call i n hi hn =>
    apply h.move (p := .enter n)
    · rw [State.active, hi]
      rfl
    · exact fun j m _ hm => h.placed.holder j m hm
    · exact fun _ hp => by cases hp
    · intro n' hp
      cases hp
      exact hn
    · exact fun _ hp => by cases hp
  | acquire i n hi hl =>
    have hn := h.placed.enter i n hi
    have ha : s.active i = none := by
      rw [State.active, hi]
      rfl
    refine ⟨⟨h.stream.ordered, h.stream.committed⟩, ?_, h.numbered.acquire ha n,
      h.delivered.acquire h.numbered hn⟩
    exact h.placed.update rfl (fun j m _ hm => absurd hm (h.placed.free hl j m))
      (fun _ _ => rfl) (fun _ hp => by cases hp) fun _ hp => by cases hp
  | sleep i k hi hn he =>
    apply h.move (p := .asleep k)
    · exact (active_loop hi).symm
    · exact fun j m hj hm => absurd (h.placed.alone hi hm) hj
    · exact fun _ hp => by cases hp
    · exact fun _ hp => by cases hp
    · intro m hp
      cases hp
      exact hn
  | wake i k hi hl =>
    apply h.move (p := .loop k)
    · rw [State.active, hi]
      rfl
    · exact fun j m _ hm => absurd hm (h.placed.free hl j m)
    · intro m hp
      cases hp
      exact ⟨rfl, h.placed.asleep i k hi⟩
    · exact fun _ hp => by cases hp
    · exact fun _ hp => by cases hp
  | full i k hi hn =>
    have hgo := h.delivered.going i k (active_loop hi)
    have hnot : ∀ a, s.ended.getLast? = some a → a.reason ≠ .kept := fun a ha hr => by
      have := (h.delivered.kept a ha hr).2 i k hi
      omega
    apply h.finish hi
    · obtain ⟨id, target, n, got⟩ := k
      obtain ⟨-, hcount, hpos, hd, hl⟩ := hgo
      simp only at hn hcount hpos
      subst hn
      obtain rfl : got.length = target := by omega
      exact .full _ _ _ hpos hd hl
    · exact fun a ha hr => absurd hr (hnot a ha)
  | kept i k hi hn he hc hk =>
    have hgo := h.delivered.going i k (active_loop hi)
    apply h.finish hi
    · have hcount := hgo.count
      refine .kept _ _ _ _ _ hcount hn ?_ hgo.not_eof hgo.not_line ?_
      · rintro hnil
        rw [hnil, List.length_nil] at hcount
        omega
      · rw [h.stream.next he, hc]
    · exact fun a ha hr => Or.inr ⟨rfl, (h.delivered.kept a ha hr).1⟩
  | eof i k hi hn he hc hk =>
    have hgo := h.delivered.going i k (active_loop hi)
    apply h.fetch_finish hi he rfl
    · obtain ⟨id, target, n, got⟩ := k
      obtain ⟨-, hcount, hpos, -, -⟩ := hgo
      simp only at hk hcount hpos
      have hnil : got = [] := List.length_eq_zero_iff.mp (by omega)
      subst hnil
      obtain rfl : n = target := hcount
      rw [hc]
      exact .eof _ _ _ hpos
    · exact fun a ha hr => Or.inl ⟨rfl, by rw [(h.delivered.kept a ha hr).1]⟩
  | line i k hi hn he hc =>
    have hgo := h.delivered.going i k (active_loop hi)
    have hcount := hgo.count
    apply h.fetch_finish (l := k.push newline) hi he rfl
    · rw [hc]
      refine .line _ _ _ _ _ ?_ hgo.not_eof hgo.not_line
      omega
    · exact fun a ha => h.follows_of_ne he (by rw [hc]; decide) ha
  | byte i k c hi hn he hc hd hnl =>
    subst hc
    exact h.fetch_next hi hn he hd hnl

theorem Inv.of_reachable (h : (machine ι).Reachable s) : Inv s :=
  h.invariant (I := Inv) (fun _ h0 => Initial.inv h0) fun _ _ _ hinv hst => Step.inv hst hinv

def Ended.result (k : Ended) : ℕ := k.target - k.n

theorem Ended.Sound.result_eq_zero {committed taken : List UInt8} {k : Ended}
    (h : k.Sound committed taken) : k.result = 0 ↔ taken = [ctrlD] := by
  have hne : ∀ {bytes : List UInt8}, ctrlD ∉ bytes → bytes ≠ [ctrlD] := by
    rintro _ hd rfl
    exact hd (List.mem_singleton_self _)
  unfold Ended.result
  cases h with
  | line id target n pos bytes hcount hd hl =>
    refine ⟨fun h0 => ?_, fun he => absurd he (hne ?_)⟩
    · simp only at h0
      omega
    · have hnl : ctrlD ≠ newline := by decide
      simp [hd, hnl]
  | full id pos bytes hpos hd hl =>
    refine ⟨fun h0 => ?_, fun he => absurd he (hne hd)⟩
    simp only at h0
    omega
  | eof id target pos hpos => simp
  | kept id target n pos bytes hcount hpos hgot hd hl hnext =>
    refine ⟨fun h0 => ?_, fun he => absurd he (hne hd)⟩
    have := List.length_pos_iff.mpr hgot
    simp only at h0
    omega

theorem Ended.Sound.eof_of_mem {committed taken : List UInt8} {k : Ended}
    (h : k.Sound committed taken) (hm : ctrlD ∈ taken) : taken = [ctrlD] := by
  cases h with
  | line id target n pos bytes hcount hd hl =>
    have hnl : ctrlD ≠ newline := by decide
    simp [hd, hnl] at hm
  | full id pos bytes hpos hd hl => exact absurd hm hd
  | eof id target pos hpos => rfl
  | kept id target n pos bytes hcount hpos hgot hd hl hnext => exact absurd hm hd

omit [DecidableEq ι] in
theorem mem_takenBy {e : ℕ × UInt8} (he : e ∈ s.taken) : e.2 ∈ s.takenBy e.1 :=
  List.mem_map_of_mem (List.mem_filter.mpr ⟨he, by simp⟩)

omit [DecidableEq ι] in
/-- A ^D that has been taken out made one call return 0, and that call took out nothing else. -/
theorem Inv.eof (h : Inv s) {e : ℕ × UInt8} (he : e ∈ s.taken) (hd : e.2 = ctrlD) :
    ∃! k, k ∈ s.ended ∧ k.id = e.1 ∧ k.result = 0 ∧ s.takenBy k.id = [ctrlD] := by
  have hmem : ctrlD ∈ s.takenBy e.1 := hd ▸ mem_takenBy he
  have huniq : ∀ k ∈ s.ended, ∀ l ∈ s.ended, k.id = l.id → k = l :=
    List.inj_on_of_nodup_map h.numbered.ended_nodup
  rcases h.numbered.owned e he with ⟨i, k, hk, hid⟩ | ⟨k, hk, hid⟩
  · have hgo := h.delivered.going i k hk
    rw [← hid, hgo.taken] at hmem
    exact absurd hmem hgo.not_eof
  · rw [← hid] at hmem
    have hs := h.delivered.sound k hk
    have htaken := hs.eof_of_mem hmem
    refine ⟨k, ⟨hk, hid, hs.result_eq_zero.mpr htaken, htaken⟩, ?_⟩
    rintro l ⟨hl, hlid, -⟩
    exact huniq l hl k hk (hlid.trans hid.symm)

/-- However characters arrive and processes read, and however often the indices have wrapped: the
indices are in order; `consoleintr` only appends to the bytes between `r` and `w`; the bytes that
have been taken out, followed by those, are the bytes that have been committed; each was taken out by
one call, which delivered it unless it is ^D; a call ends as `Ended.Sound` says; each ^D that has been
taken out made exactly one call return 0; and a call that leaves a ^D is followed by one that ends
there. -/
theorem console_discipline (h : (machine ι).Reachable s) :
    s.cons.Ordered ∧
    (∀ c, (s.cons.consoleintr c).r = s.cons.r ∧
      s.cons.pending <+: (s.cons.consoleintr c).pending) ∧
    s.committed = s.taken.map Prod.snd ++ s.cons.pending ∧
    Numbered s ∧
    (∀ i k, s.active i = some k → k.Going (s.takenBy k.id)) ∧
    (∀ k ∈ s.ended, k.Sound s.committed (s.takenBy k.id) ∧
      (k.result = 0 ↔ s.takenBy k.id = [ctrlD])) ∧
    (∀ e ∈ s.taken, e.2 = ctrlD →
      ∃! k, k ∈ s.ended ∧ k.id = e.1 ∧ k.result = 0 ∧ s.takenBy k.id = [ctrlD]) ∧
    s.ended.IsChain Ended.Follows := by
  have hinv := Inv.of_reachable h
  refine ⟨hinv.stream.ordered, fun c => ?_, hinv.stream.committed, hinv.numbered,
    hinv.delivered.going, fun k hk => ?_, fun e he hd => hinv.eof he hd, hinv.delivered.follows⟩
  · have hc := hinv.stream.ordered.consoleintr c
    exact ⟨hc.r, hc.pending ▸ List.prefix_append _ _⟩
  · have hs := hinv.delivered.sound k hk
    exact ⟨hs, hs.result_eq_zero⟩

def quiet : State Unit where
  cons := ⟨fun _ => 0, 0, 0, 0⟩
  lock := none
  pc _ := .idle
  calls := 0
  committed := []
  taken := []
  ended := []

/-- An `a` and ^D are typed; the first call of `read` returns the `a` and the second returns 0. -/
theorem console_discipline_eof : ∃ s : State Unit, (machine Unit).Reachable s ∧
    s.committed = s.taken.map Prod.snd ++ s.cons.pending ∧ s.committed = [97, ctrlD] ∧
    s.ended.map Ended.result = [1, 0] := by
  have h0 : (machine Unit).Reachable quiet := .init ⟨⟨rfl, rfl⟩, rfl, fun _ => rfl, rfl, rfl, rfl, rfl⟩
  have h1 := h0.step (Step.intr 97 rfl)
  have h2 := h1.step (Step.intr ctrlD rfl)
  have h3 := h2.step (Step.call () 5 rfl (by decide))
  have h4 := h3.step (Step.acquire () 5 rfl rfl)
  have h5 := h4.step (Step.byte () _ 97 rfl (by decide) (by decide) (by decide) (by decide) (by decide))
  have h6 := h5.step (Step.kept () _ rfl (by decide) (by decide) (by decide) (by decide))
  have h7 := h6.step (Step.call () 5 rfl (by decide))
  have h8 := h7.step (Step.acquire () 5 rfl rfl)
  have h9 := h8.step (Step.eof () _ rfl (by decide) (by decide) (by decide) (by decide))
  exact ⟨_, h9, (console_discipline h9).2.2.1, by decide, by decide⟩

end Xv6.Console
