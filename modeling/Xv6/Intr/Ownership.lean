import Xv6.Intr.Machine

/-! The interrupt state belongs to the kernel thread, although `noff` and `intena` are fields of
`struct cpu`. -/
namespace Xv6.Intr

open Lib (System)

variable {P N : ℕ} {s t : State P N} {c d : Fin N}

def Pc.interruptible : Pc P → Bool
  | run | pushGet _ | pushOff _ _ => true
  | _ => false

/-- The value that `c->intena` has, or will have when the thread goes on, if the CPU has `b`. -/
def Pc.intena (b : Bool) : Pc P → Bool
  | switchOut b' | resume b' => b'
  | _ => b

theorem Pc.pending_of_interruptible {pc : Pc P} (h : pc.interruptible = true) : pc.pending = 0 := by
  cases pc <;> first | rfl | cases h

theorem Pc.intena_of_interruptible {pc : Pc P} (h : pc.interruptible = true) (b : Bool) :
    pc.intena b = b := by
  cases pc <;> first | rfl | cases h

theorem Pc.ne_switchOut {pc : Pc P} (h : pc.interruptible = true) (b : Bool) :
    pc ≠ .switchOut b := by
  rintro rfl
  cases h

theorem Pc.pushed_ne_switchOut (l : Option (Lock P)) (b : Bool) : pushed l ≠ .switchOut b := by
  cases l <;> exact fun h => by cases h

@[simp] theorem Pc.pending_pushed (l : Option (Lock P)) :
    (pushed l).pending = if l = none then 0 else 1 := by
  cases l <;> rfl

@[simp] theorem Pc.intena_pushed (b : Bool) (l : Option (Lock P)) : (pushed l).intena b = b := by
  cases l <;> rfl

/-- What a CPU and the thread that runs there agree on. -/
structure Agree (x : Cpu P N) (th : Th P) : Prop where
  noff : x.noff = th.charge
  intr : x.intr = true → th.charge = 0 ∧ th.pc.interruptible = true
  traps : ∀ pc ∈ th.traps, pc.interruptible = true
  intena : ∀ p, x.running = .proc p → ∀ b, th.outer = some b → th.pc.intena x.intena = b
  sched : ∀ b, th.pc = .switchOut b → th.held.length = 1 ∧ th.bare = 0

/-- A thread that no CPU runs: nothing is charged to it, and a process has the value to restore. -/
structure Idle (i : Thread P N) (th : Th P) : Prop where
  charge : th.charge = 0
  traps : ∀ pc ∈ th.traps, pc.interruptible = true
  intena : ∀ p, i = .proc p → ∀ b, th.outer = some b → th.pc = .resume b
  away : ∀ b, th.pc ≠ .switchOut b

theorem Idle.bare {i : Thread P N} {th : Th P} (h : Idle i th) : th.bare = 0 := by
  have hc := h.charge
  unfold Th.charge at hc
  omega

theorem Idle.pending {i : Thread P N} {th : Th P} (h : Idle i th) : th.pc.pending = 0 := by
  have hc := h.charge
  unfold Th.charge at hc
  omega

theorem Idle.start (i : Thread P N) : Idle i (⟨.start, [], 0, [], none⟩ : Th P) :=
  ⟨rfl, fun _ hpc => absurd hpc List.not_mem_nil, fun _ _ _ hb => (by cases hb), fun _ hb => by cases hb⟩

structure Inv (s : State P N) : Prop where
  agree : ∀ c, Agree (s.cpu c) (s.cur c)
  home : ∀ c d, (s.cpu c).running = .sched d → d = c
  once : ∀ c d, (s.cpu c).running = (s.cpu d).running → c = d
  idle : ∀ i, (∀ c, (s.cpu c).running ≠ i) → Idle i (s.thread i)

theorem Initial.inv (h : Initial s) : Inv s := by
  have hcur : ∀ c, s.cur c = ⟨.run, [], 0, [], none⟩ := fun c => by
    rw [State.cur, (h.cpu c).2, h.sched c]
  refine ⟨fun c => ?_, fun c d hr => ?_, fun c d hr => ?_, fun i hi => ?_⟩
  · rw [hcur c]
    exact ⟨(h.cpu c).1, fun _ => ⟨rfl, rfl⟩, fun _ hpc => absurd hpc List.not_mem_nil,
      fun _ _ _ hb => (by cases hb), fun _ hb => by cases hb⟩
  · rw [(h.cpu c).2] at hr
    exact (Thread.sched.inj hr).symm
  · rw [(h.cpu c).2, (h.cpu d).2] at hr
    exact Thread.sched.inj hr
  · cases i with
    | proc p =>
      rw [h.proc p]
      exact Idle.start _
    | sched c => exact absurd (h.cpu c).2 (hi c)

namespace Inv

theorem put (h : Inv s) {x : Cpu P N} {th : Th P} (hx : x.running = (s.cpu c).running)
    (ha : Agree x th) : Inv (s.put c x th) := by
  have hrun : ∀ d, ((s.put c x th).cpu d).running = (s.cpu d).running := fun d => by
    by_cases hd : d = c
    · subst hd
      simp only [State.put, Function.update_self, hx]
    · simp only [State.put, Function.update_of_ne hd]
  refine ⟨fun d => ?_, fun d e hr => ?_, fun d e hr => ?_, fun i hi => ?_⟩
  · by_cases hd : d = c
    · subst hd
      rw [State.cur, hrun]
      simp only [State.put, Function.update_self]
      exact ha
    · have hne : (s.cpu d).running ≠ (s.cpu c).running := fun he => hd (h.once d c he)
      rw [State.cur, hrun]
      simp only [State.put, Function.update_of_ne hd, Function.update_of_ne hne]
      exact h.agree d
  · exact h.home d e ((hrun d).symm.trans hr)
  · exact h.once d e (((hrun d).symm.trans hr).trans (hrun e))
  · have hne : i ≠ (s.cpu c).running := fun he => hi c ((hrun c).trans he.symm)
    simp only [State.put, Function.update_of_ne hne]
    exact h.idle i fun d hd => hi d ((hrun d).trans hd)

theorem setParked (h : Inv s) {p : Fin P} {th : Th P} (hp : s.Parked p) (hth : Idle (.proc p : Thread P N) th) :
    Inv { s with thread := Function.update s.thread (.proc p) th } := by
  refine ⟨fun d => ?_, h.home, h.once, fun i hi => ?_⟩
  · simp only [State.cur, Function.update_of_ne (hp d)]
    exact h.agree d
  · by_cases hip : i = .proc p
    · subst hip
      simp only [Function.update_self]
      exact hth
    · simp only [Function.update_of_ne hip]
      exact h.idle i hi

theorem setLock (h : Inv s) (f : Lock P → Option (Fin N)) : Inv ⟨s.cpu, s.thread, f⟩ :=
  ⟨h.agree, h.home, h.once, h.idle⟩

theorem switch (h : Inv s) {i : Thread P N} {x y : Th P}
    (hi : ∀ d, (s.cpu d).running ≠ i) (hhome : ∀ d, i = .sched d → d = c)
    (ha : Agree { s.cpu c with running := i } y) (hidle : Idle (s.cpu c).running x) :
    Inv { s with
      cpu := Function.update s.cpu c { s.cpu c with running := i }
      thread := Function.update (Function.update s.thread (s.cpu c).running x) i y } := by
  have hci : i ≠ (s.cpu c).running := fun he => hi c he.symm
  refine ⟨fun d => ?_, fun d e hr => ?_, fun d e hr => ?_, fun j hj => ?_⟩
  · by_cases hd : d = c
    · subst hd
      simp only [State.cur, Function.update_self]
      exact ha
    · have hne : (s.cpu d).running ≠ (s.cpu c).running := fun he => hd (h.once d c he)
      simp only [State.cur, Function.update_of_ne hd, Function.update_of_ne (hi d),
        Function.update_of_ne hne]
      exact h.agree d
  · by_cases hd : d = c
    · subst hd
      simp only [Function.update_self] at hr
      exact hhome e hr
    · simp only [Function.update_of_ne hd] at hr
      exact h.home d e hr
  · by_cases hd : d = c <;> by_cases he : e = c
    · rw [hd, he]
    · subst hd
      simp only [Function.update_self, Function.update_of_ne he] at hr
      exact absurd hr.symm (hi e)
    · subst he
      simp only [Function.update_self, Function.update_of_ne hd] at hr
      exact absurd hr (hi d)
    · simp only [Function.update_of_ne hd, Function.update_of_ne he] at hr
      exact h.once d e hr
  · have hji : j ≠ i := fun he => hj c (by simp only [Function.update_self, he])
    by_cases hjc : j = (s.cpu c).running
    · subst hjc
      simp only [Function.update_of_ne hji, Function.update_self]
      exact hidle
    · simp only [Function.update_of_ne hji, Function.update_of_ne hjc]
      refine h.idle j fun d hd => ?_
      by_cases hdc : d = c
      · exact hjc (hdc ▸ hd.symm)
      · exact hj d (by simp only [Function.update_of_ne hdc, hd])

end Inv

namespace Agree

variable {x y : Cpu P N} {th th' : Th P}

/-- Interrupts are off while something is charged to the thread, and where none can be taken. -/
theorem off (h : Agree x th) (hth : th.charge ≠ 0 ∨ th.pc.interruptible = false) :
    x.intr = false := by
  cases hx : x.intr with
  | false => rfl
  | true =>
    obtain ⟨h0, hpc⟩ := h.intr hx
    rcases hth with hne | hpc'
    · exact absurd h0 hne
    · rw [hpc] at hpc'
      cases hpc'

theorem keep (h : Agree x th) (hoff : y.intr = false) (hrun : y.running = x.running)
    (houter : th'.outer = th.outer) (htraps : th'.traps = th.traps) (hnoff : y.noff = th'.charge)
    (hintena : th'.pc.intena y.intena = th.pc.intena x.intena)
    (hsched : ∀ b, th'.pc = .switchOut b → th'.held.length = 1 ∧ th'.bare = 0) : Agree y th' := by
  refine ⟨hnoff, fun hy => ?_, fun pc hpc => h.traps pc (htraps ▸ hpc), fun p hp b hb => ?_, hsched⟩
  · rw [hoff] at hy
    cases hy
  · exact hintena.trans (h.intena p (hrun ▸ hp) b (houter ▸ hb))

theorem goto (h : Agree x th) {pc : Pc P} (hold : th.pc.pending = 0)
    (hintena : th.pc.intena x.intena = x.intena) (hpc : pc.interruptible = true) :
    Agree x { th with pc := pc } := by
  have hcharge : ({ th with pc := pc } : Th P).charge = th.charge := by
    simp only [Th.charge, hold, Pc.pending_of_interruptible hpc]
  refine ⟨h.noff.trans hcharge.symm, fun hx => ⟨hcharge.trans (h.intr hx).1, hpc⟩, h.traps,
    fun p hp b hb => ?_, fun b hb => absurd hb (Pc.ne_switchOut hpc b)⟩
  calc pc.intena x.intena = x.intena := Pc.intena_of_interruptible hpc _
    _ = th.pc.intena x.intena := hintena.symm
    _ = b := h.intena p hp b hb

end Agree

/-- Each instruction keeps the CPUs in agreement with the threads that run there. -/
theorem Step.inv (hst : Step c s t) (h : Inv s) : Inv t := by
  have ha := h.agree c
  have hn := ha.noff
  cases hst with
  | push l hpc =>
    have hgo : Agree (s.cpu c) { s.cur c with pc := .pushGet l } :=
      ha.goto (by rw [hpc]; rfl) (by rw [hpc]; rfl) rfl
    exact h.put rfl hgo
  | intrGet l hpc =>
    have hgo : Agree (s.cpu c) { s.cur c with pc := .pushOff (s.cpu c).intr l } :=
      ha.goto (by rw [hpc]; rfl) (by rw [hpc]; rfl) rfl
    exact h.put rfl hgo
  | pushOff old l hpc =>
    refine h.put rfl (ha.keep rfl rfl rfl rfl ?_ (by rw [hpc]; rfl) fun _ hb => by cases hb)
    simpa only [Th.charge, hpc, Pc.pending] using hn
  | pushCount old l hpc =>
    have hoff := ha.off (.inr (by rw [hpc]; rfl))
    simp only [Th.charge, hpc, Pc.pending, Nat.add_zero] at hn
    refine h.put rfl ⟨?_, fun hi => ?_, ha.traps, fun p hp b hb => ?_,
      fun b hb => absurd hb (Pc.pushed_ne_switchOut l b)⟩
    · simp only [Th.charge, Pc.pending_pushed, hn]
      split_ifs <;> omega
    · exact absurd (hoff.symm.trans hi) Bool.false_ne_true
    · simp only [Pc.intena_pushed]
      -- the outermost call stores `old`, a later one leaves `intena` as it is
      by_cases h0 : (s.cpu c).noff = 0
      · simp only [if_pos h0] at hb ⊢
        exact Option.some.inj hb
      · simp only [if_neg h0] at hb ⊢
        have hsame := ha.intena p hp b hb
        rw [hpc] at hsame
        exact hsame
  | acquire l hpc hl =>
    have hoff := ha.off (.inr (by rw [hpc]; rfl))
    simp only [Th.charge, hpc, Pc.pending] at hn
    have hrun : Agree (s.cpu c) { s.cur c with pc := .run, held := l :: (s.cur c).held } := by
      refine ha.keep hoff rfl rfl rfl ?_ (by rw [hpc]; rfl) fun _ hb => by cases hb
      simp only [Th.charge, Pc.pending, List.length_cons]
      omega
    exact (h.put rfl hrun).setLock _
  | release l hpc hm hl =>
    have hlen := List.length_pos_of_mem hm
    have hoff := ha.off (.inl (by unfold Th.charge; omega))
    simp only [Th.charge, hpc, Pc.pending] at hn
    have hpop : Agree (s.cpu c)
        { s.cur c with pc := .popCheck, held := (s.cur c).held.erase l } := by
      refine ha.keep hoff rfl rfl rfl ?_ (by rw [hpc]; rfl) fun _ hb => by cases hb
      simp only [Th.charge, Pc.pending, List.length_erase_of_mem hm]
      omega
    exact (h.put rfl hpop).setLock _
  | popOff hpc hb =>
    have hoff := ha.off (.inl (by unfold Th.charge; omega))
    simp only [Th.charge, hpc, Pc.pending] at hn
    refine h.put rfl (ha.keep hoff rfl rfl rfl ?_ (by rw [hpc]; rfl) fun _ hb => by cases hb)
    simp only [Th.charge, Pc.pending]
    omega
  | popCheck hpc hi h1 =>
    simp only [Th.charge, hpc, Pc.pending] at hn
    refine h.put rfl (ha.keep hi rfl rfl rfl ?_ (by rw [hpc]; rfl) fun _ hb => by cases hb)
    simp only [Th.charge, Pc.pending]
    omega
  | popEnable hpc =>
    have hoff := ha.off (.inr (by rw [hpc]; rfl))
    have hcharge : ∀ o, ({ s.cur c with pc := .run, outer := o } : Th P).charge = (s.cur c).charge :=
      fun o => by simp only [Th.charge, hpc, Pc.pending]
    refine h.put rfl ⟨hn.trans (hcharge _).symm, fun hx => ⟨(hcharge _).trans ?_, rfl⟩, ha.traps,
      fun p hp b hb => ?_, fun _ hb => by cases hb⟩
    · by_cases h0 : (s.cpu c).noff = 0 ∧ (s.cpu c).intena = true
      · exact hn.symm.trans h0.1
      · simp only [if_neg h0, hoff] at hx
        cases hx
    · by_cases h0 : (s.cpu c).noff = 0
      · simp only [if_pos h0] at hb
        cases hb
      · simp only [if_neg h0] at hb
        have hsame := ha.intena p hp b hb
        rw [hpc] at hsame
        exact hsame
  | intrOn hpc hc =>
    exact h.put rfl ⟨hn, fun _ => ⟨hc, by rw [hpc]; rfl⟩, ha.traps, ha.intena, ha.sched⟩
  | intrOff hpc => exact h.put rfl (ha.keep rfl rfl rfl rfl hn rfl ha.sched)
  | trap hi =>
    obtain ⟨h0, hpc⟩ := ha.intr hi
    have hcharge : ∀ l, ({ s.cur c with pc := .run, traps := l } : Th P).charge = (s.cur c).charge :=
      fun l => by
        rw [Th.charge, Th.charge, Pc.pending_of_interruptible hpc]
        rfl
    refine h.put rfl ⟨hn.trans (hcharge _).symm, fun hx => (by cases hx), fun pc hm => ?_,
      fun p hp b hb => ?_, fun _ hb => by cases hb⟩
    · rcases List.mem_cons.mp hm with rfl | hm
      · exact hpc
      · exact ha.traps pc hm
    · exact (Pc.intena_of_interruptible hpc _).symm.trans (ha.intena p hp b hb)
  | sret pc pcs hpc hc ht =>
    have hmem : ∀ q ∈ pc :: pcs, q.interruptible = true := ht ▸ ha.traps
    have hint : pc.interruptible = true := hmem pc List.mem_cons_self
    have hcharge : ({ s.cur c with pc := pc, traps := pcs } : Th P).charge = (s.cur c).charge := by
      rw [Th.charge, Th.charge, Pc.pending_of_interruptible hint, hpc]
      rfl
    refine h.put rfl ⟨hn.trans hcharge.symm, fun _ => ⟨hcharge.trans hc, hint⟩,
      fun q hq => hmem q (List.mem_cons_of_mem _ hq), fun p hp b hb => ?_,
      fun b hb => absurd hb (Pc.ne_switchOut hint b)⟩
    have hsame := ha.intena p hp b hb
    rw [hpc] at hsame
    exact (Pc.intena_of_interruptible hint _).trans hsame
  | sched p hr hpc hl hb =>
    have hoff := ha.off (.inl (by simp [Th.charge, hl]))
    have hone : (s.cur c).held.length = 1 := by rw [hl]; rfl
    refine h.put rfl (ha.keep hoff rfl rfl rfl ?_ (by rw [hpc]; rfl) fun _ _ => ⟨hone, hb⟩)
    simpa only [Th.charge, hpc, Pc.pending] using hn
  | swtch p b hr hpc =>
    obtain ⟨hone, hb⟩ := ha.sched b hpc
    have hoff := ha.off (.inr (by rw [hpc]; rfl))
    have hfree : ∀ d, (s.cpu d).running ≠ .sched c := fun d hd => by
      have hdc := h.home d c hd
      subst hdc
      rw [hr] at hd
      cases hd
    have hsched := h.idle (.sched c) hfree
    simp only [Th.charge, hpc, Pc.pending, hone, hb] at hn
    have hnew : Agree { s.cpu c with running := .sched c }
        { s.thread (.sched c) with pc := .run, held := [.proc p] } := by
      refine ⟨?_, fun hx => absurd (hoff.symm.trans hx) Bool.false_ne_true, hsched.traps,
        fun _ hp => (by cases hp), fun _ hb => by cases hb⟩
      simp only [Th.charge, Pc.pending, List.length_singleton, hsched.bare]
      exact hn
    have hold : Idle (s.cpu c).running { s.cur c with pc := .resume b, held := [] } := by
      refine ⟨?_, ha.traps, fun q hq b' hb' => ?_, fun _ hb' => by cases hb'⟩
      · simp only [Th.charge, Pc.pending, List.length_nil, hb]
      · have hsaved := ha.intena q hq b' hb'
        rw [hpc] at hsaved
        exact congrArg Pc.resume hsaved
    rw [← hr]
    exact h.switch hfree (fun d hd => (Thread.sched.inj hd).symm) hnew hold
  | restore b hpc =>
    have hoff := ha.off (.inr (by rw [hpc]; rfl))
    refine h.put rfl (ha.keep hoff rfl rfl rfl ?_ (by rw [hpc]; rfl) fun _ hb => by cases hb)
    simpa only [Th.charge, hpc, Pc.pending] using hn
  | forkret hpc =>
    have hoff := ha.off (.inr (by rw [hpc]; rfl))
    refine h.put rfl (ha.keep hoff rfl rfl rfl ?_ (by rw [hpc]; rfl) fun _ hb => by cases hb)
    simpa only [Th.charge, hpc, Pc.pending] using hn
  | switchTo p hr hpc hl hb hp =>
    have hoff := ha.off (.inl (by simp [Th.charge, hl]))
    have hidle := h.idle (.proc p) hp
    simp only [Th.charge, hpc, Pc.pending, hl, hb, List.length_singleton] at hn
    have hnew : Agree ({ s.cpu c with running := .proc p } : Cpu P N)
        { s.thread (.proc p) with held := [.proc p] } := by
      refine ⟨?_, fun hx => absurd (hoff.symm.trans hx) Bool.false_ne_true, hidle.traps,
        fun q hq b' hb' => ?_, fun b' hb' => absurd hb' (hidle.away b')⟩
      · simp only [Th.charge, List.length_singleton, hidle.bare, hidle.pending]
        exact hn
      · show (s.thread (.proc p)).pc.intena _ = b'
        rw [hidle.intena p rfl b' hb']
        rfl
    have hold : Idle (s.cpu c).running { s.cur c with pc := .away, held := [], outer := none } := by
      refine ⟨?_, ha.traps, fun _ _ _ hb' => (by cases hb'), fun _ hb' => by cases hb'⟩
      simp only [Th.charge, Pc.pending, List.length_nil, hb]
    rw [← hr]
    exact h.switch hp (fun d hd => by cases hd) hnew hold
  | allocproc p hpc hp => exact h.setParked hp (Idle.start _)

theorem Inv.of_reachable (h : (machine P N).Reachable s) : Inv s := by
  refine h.invariant (S := machine P N) (I := Inv) (fun _ h0 => Initial.inv h0) ?_
  rintro _ _ _ hinv ⟨_, hst⟩
  exact hst.inv hinv

/-- The last statement of `pop_off`, in a section that the process itself began with interrupts
enabled or not, as `b` says. -/
theorem Step.enables (hst : Step c s t) (h : Inv s) {p : Fin P} {b : Bool}
    (hr : (s.cpu c).running = .proc p) (hpc : (s.cur c).pc = .popEnable)
    (h0 : (s.cpu c).noff = 0) (hb : (s.cur c).outer = some b) : (t.cpu c).intr = b := by
  have ha := h.agree c
  have hoff := ha.off (.inr (by rw [hpc]; rfl))
  have hintena : (s.cpu c).intena = b := by
    have hsaved := ha.intena p hr b hb
    rw [hpc] at hsaved
    exact hsaved
  cases hst with
  | popEnable =>
    simp only [State.put, Function.update_self, h0, hintena, hoff, true_and]
    cases b <;> rfl
  | trap hi => exact absurd (hoff.symm.trans hi) Bool.false_ne_true
  | _ => simp_all

/-- On every CPU, in every run: interrupts are off while `noff` is positive; `noff` counts the locks
and the calls of `push_off` charged to the thread that runs there; `pop_off` does not panic; and when
a process takes `noff` back to 0 in a section that it began itself, interrupts become enabled if and
only if they were when the section began. -/
theorem interrupts_owned (h : (machine P N).Reachable s) (c : Fin N) :
    (0 < (s.cpu c).noff → (s.cpu c).intr = false) ∧
    (s.cpu c).noff = (s.cur c).charge ∧
    ((s.cur c).pc = .popCheck → (s.cpu c).intr = false ∧ 1 ≤ (s.cpu c).noff) ∧
    ∀ t p b, Step c s t → (s.cpu c).running = .proc p → (s.cur c).pc = .popEnable →
      (s.cpu c).noff = 0 → (s.cur c).outer = some b → (t.cpu c).intr = b := by
  have hinv := Inv.of_reachable h
  have ha := hinv.agree c
  refine ⟨fun hpos => ha.off (.inl (by rw [← ha.noff]; omega)), ha.noff, fun hpc => ⟨?_, ?_⟩,
    fun t p b hst => hst.enables hinv⟩
  · exact ha.off (.inr (by rw [hpc]; rfl))
  · rw [ha.noff, Th.charge, hpc]
    exact Nat.le_add_left 1 _

/-- One CPU and one process, in terms of the CPU, its scheduler, the process and `p->lock`. -/
def single (x : Cpu 1 1) (a b : Th 1) (l : Option (Fin 1)) : State 1 1 where
  cpu _ := x
  thread
    | .sched _ => a
    | .proc _ => b
  lock
    | .proc _ => l
    | .other _ => none

theorem single_ext {u v : State 1 1} (hx : u.cpu 0 = v.cpu 0)
    (ha : u.thread (.sched 0) = v.thread (.sched 0)) (hb : u.thread (.proc 0) = v.thread (.proc 0))
    (hl : u.lock (.proc 0) = v.lock (.proc 0)) (ho : ∀ n, u.lock (.other n) = v.lock (.other n)) :
    u = v := by
  have h0 : ∀ c : Fin 1, c = 0 := fun c => Subsingleton.elim c 0
  rw [State.mk.injEq]
  refine ⟨funext fun c => ?_, funext fun i => ?_, funext fun k => ?_⟩
  · rw [h0 c, hx]
  · cases i with
    | proc p => rw [h0 p, hb]
    | sched c => rw [h0 c, ha]
  · cases k with
    | proc p => rw [h0 p, hl]
    | other n => exact ho n

theorem single_step {x : Cpu 1 1} {a b : Th 1} {l : Option (Fin 1)} {t : State 1 1}
    (h : (machine 1 1).Reachable (single x a b l)) (hst : Step 0 (single x a b l) t)
    (ho : ∀ n, t.lock (.other n) = none) : (machine 1 1).Reachable
      (single (t.cpu 0) (t.thread (.sched 0)) (t.thread (.proc 0)) (t.lock (.proc 0))) := by
  have ht : t = single (t.cpu 0) (t.thread (.sched 0)) (t.thread (.proc 0)) (t.lock (.proc 0)) :=
    single_ext rfl rfl rfl rfl ho
  exact ht ▸ h.step ⟨0, hst⟩

theorem booted_initial :
    Initial (single ⟨true, 0, false, .sched 0⟩ ⟨.run, [], 0, [], none⟩ ⟨.start, [], 0, [], none⟩ none) where
  cpu c := ⟨rfl, by rw [Subsingleton.elim c 0]; rfl⟩
  sched _ := rfl
  proc _ := rfl
  lock l := by cases l <;> rfl

theorem single_forkret : (machine 1 1).Reachable (single ⟨true, 0, true, .proc 0⟩
    ⟨.away, [], 0, [], none⟩ ⟨.run, [], 0, [], none⟩ none) := by
  have h0 : (machine 1 1).Reachable _ := .init booted_initial
  have h1 := single_step h0 (.push (some (.proc 0)) rfl) fun _ => rfl
  have h2 := single_step h1 (.intrGet _ rfl) fun _ => rfl
  have h3 := single_step h2 (.pushOff _ _ rfl) fun _ => rfl
  have h4 := single_step h3 (.pushCount _ _ rfl) fun _ => rfl
  have h5 := single_step h4 (.acquire _ rfl rfl) fun _ => rfl
  have h6 := single_step h5 (.switchTo 0 rfl rfl rfl rfl fun c h => by cases h) fun _ => rfl
  have h7 := single_step h6 (.forkret rfl) fun _ => rfl
  have h8 := single_step h7 (.release (.proc 0) rfl (by decide) rfl) fun _ => rfl
  have h9 := single_step h8 (.popCheck rfl rfl (by decide)) fun _ => rfl
  exact single_step h9 (.popEnable rfl) fun _ => rfl

/-- It then calls `push_off` and `pop_off` with interrupts enabled. -/
theorem interrupts_owned_forkret : ∃ s t, (machine 1 1).Reachable s ∧
    (s.cpu 0).running = .proc 0 ∧ (s.cur 0).pc = .popEnable ∧ (s.cur 0).outer = some true ∧
    Step 0 s t ∧ (t.cpu 0).intr = true := by
  have h1 := single_step single_forkret (.push none rfl) fun _ => rfl
  have h2 := single_step h1 (.intrGet _ rfl) fun _ => rfl
  have h3 := single_step h2 (.pushOff _ _ rfl) fun _ => rfl
  have h4 := single_step h3 (.pushCount _ _ rfl) fun _ => rfl
  have h5 := single_step h4 (.popOff rfl (by decide)) fun _ => rfl
  have h6 := single_step h5 (.popCheck rfl rfl (by decide)) fun _ => rfl
  refine ⟨_, _, h6, rfl, rfl, rfl, .popEnable rfl, ?_⟩
  exact (interrupts_owned h6 0).2.2.2 _ 0 true (.popEnable rfl) rfl rfl rfl rfl

end Xv6.Intr
