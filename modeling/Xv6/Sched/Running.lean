import Xv6.Sched.Control

/-! The steps keep the control invariant: every lock has one holder, and a process runs on at most
one CPU. -/
namespace Xv6.Sched

open Proc (ProcState)
open Pc Kernel

variable {N : ℕ} {σ K : Type} {client : Client σ K} {init : σ → Prop} {s t : Kernel N σ K}
  {c d : Fin N} {p q np : Slot} {f : K → ℕ → Bool} {me : Option Slot} {k k' : Pc K}

namespace Control

theorem acquire (h : Control f s) (hpc : s.code c = .acquire p k) (hl : s.plock p = none) :
    Control f { s.goto c k with plock := Function.update s.plock p (some c) } := by
  have hok := h.ok c
  rw [hpc, Ok] at hok
  refine (h.relock (Function.update s.plock p (some c)) s.lock hok.2.2.2.2 ?_ ?_ ?_ ?_).congr
    rfl rfl rfl (by simp) rfl
  · intro d q
    rw [Function.update_apply]
    have hq := h.plock d q
    split_ifs with hqp hd hd
    · subst hqp hd
      simp [hok.1]
    · subst hqp
      rw [hl] at hq
      simp only [reduceCtorEq, false_iff, Bool.not_eq_true] at hq
      rw [hq]
      simp [Ne.symm hd]
    · subst hd
      rw [hpc] at hq
      simpa [holds, hqp] using hq
    · exact hq
  · intro d m
    rw [h.lock d m]
    split_ifs with hd
    · rw [hd, hpc]
      rfl
    · rfl
  · rw [hpc]
    exact hok.2.2.1
  · intro st hst
    rw [hpc] at hst
    have : st = .running := hst
    rw [this]
    exact hok.2.1

theorem release (h : Control f s) (hpc : s.code c = .release p k) :
    Control f { s.goto c k with plock := Function.update s.plock p none } := by
  have hok := h.ok c
  rw [hpc, Ok] at hok
  have hl : s.plock p = some c := (h.plock c p).mpr (by simp [hpc, holds])
  refine (h.relock (Function.update s.plock p none) s.lock hok.2.2 ?_ ?_ ?_ ?_).congr
    rfl rfl rfl (by simp) rfl
  · intro d q
    rw [Function.update_apply]
    have hq := h.plock d q
    split_ifs with hqp hd hd
    · simp [hok.1 q]
    · subst hqp
      rw [hl] at hq
      simpa [Ne.symm hd] using hq
    · subst hd
      rw [hpc] at hq
      simpa [holds, hqp] using hq
    · exact hq
  · intro d m
    rw [h.lock d m]
    split_ifs with hd
    · rw [hd, hpc]
      rfl
    · rfl
  · rw [hpc]
    have := hok.1
    cases k <;> simp [runs, holds] at this ⊢
  · intro st hst
    rwa [hpc] at hst

theorem acquireLk (h : Control f s) {l : Lock} (hpc : s.code c = .acquireLk l k)
    (hl : s.lock l = none) :
    Control f { s.goto c k with lock := Function.update s.lock l (some c) } := by
  have hok := h.ok c
  rw [hpc, Ok] at hok
  refine (h.relock s.plock (Function.update s.lock l (some c)) hok.2.2.2.2 ?_ ?_ ?_ ?_).congr
    rfl rfl (by simp) rfl rfl
  · intro d q
    rw [h.plock d q]
    split_ifs with hd
    · rw [hd, hpc]
      rfl
    · rfl
  · intro d m
    have hw := h.lock d m
    rw [Function.update_apply]
    split_ifs with hml hd hd
    · subst hml hd
      simp [hok.1]
    · subst hml
      rw [hl] at hw
      simp only [reduceCtorEq, false_iff, Bool.not_eq_true] at hw
      rw [hw]
      simp [Ne.symm hd]
    · subst hd
      rw [hpc] at hw
      simpa [holdsLk, hml] using hw
    · exact hw
  · rw [hpc]
    have := hok.2.1
    cases k <;> simp [runs, holds] at this ⊢
  · intro st hst
    rwa [hpc] at hst

theorem releaseLk (h : Control f s) {l : Lock} (hpc : s.code c = .releaseLk l k) :
    Control f { s.goto c k with lock := Function.update s.lock l none } := by
  have hok := h.ok c
  rw [hpc, Ok] at hok
  have hl : s.lock l = some c := (h.lock c l).mpr (by simp [hpc, holdsLk])
  refine (h.relock s.plock (Function.update s.lock l none) hok.2.2.2 ?_ ?_ ?_ ?_).congr
    rfl rfl (by simp) rfl rfl
  · intro d q
    rw [h.plock d q]
    split_ifs with hd
    · rw [hd, hpc]
      rfl
    · rfl
  · intro d m
    have hw := h.lock d m
    rw [Function.update_apply]
    split_ifs with hml hd hd
    · subst hml
      simp [hok.1]
    · subst hml
      rw [hl] at hw
      simpa [Ne.symm hd] using hw
    · subst hd
      rw [hpc] at hw
      simpa [holdsLk, hml] using hw
    · exact hw
  · rw [hpc]
    exact hok.2.1
  · intro st hst
    rwa [hpc] at hst

theorem pick (h : Control f s) {i : Slot} (hpc : s.code c = .pick i)
    (hs : (s.proc i).state = .runnable) :
    Control f { s.setProc i { s.proc i with state := .running } with
      cpu := Function.update s.cpu c { s.cpu c with proc := some i, pc := .switchTo i } } := by
  have hok := h.ok c
  rw [hpc, Ok] at hok
  have hoff : ∀ d, (s.cpu d).proc ≠ some i := by
    apply h.off_cpu (c := c)
    · intro st hst
      rwa [hpc] at hst
    · simp [hpc, holds]
    · rw [hs]
      decide
  have hpcc : (s.cpu c).pc = .pick i := by rw [← code_of_scheduler hok, hpc]
  have hnone : (s.cpu c).proc = none := by
    rw [h.proc c hok, hpcc]
    rfl
  have hagent : ∀ d, ({ s.setProc i { s.proc i with state := .running } with
      cpu := Function.update s.cpu c { s.cpu c with proc := some i, pc := .switchTo i } } :
        Kernel N σ K).agent d = s.agent d := by
    intro d
    by_cases hd : d = c
    · subst hd
      rw [hok]
      simp [agent]
    · simp [agent, hd]
  have hcode : ∀ d, ({ s.setProc i { s.proc i with state := .running } with
      cpu := Function.update s.cpu c { s.cpu c with proc := some i, pc := .switchTo i } } :
        Kernel N σ K).code d = if d = c then .switchTo i else s.code d := by
    intro d
    unfold code
    rw [hagent]
    by_cases hd : d = c
    · subst hd
      simp [hok]
    · simp only [Function.update_of_ne hd, thread_setProc, if_neg hd]
  constructor
  · intro d
    rw [hcode, hagent]
    split_ifs with hd
    · subst hd
      exact hok
    · exact h.ok d
  · intro d q
    rw [hcode]
    have hq := h.plock d q
    split_ifs with hd
    · subst hd
      rwa [hpc] at hq
    · exact hq
  · intro d m
    rw [hcode]
    have hq := h.lock d m
    split_ifs with hd
    · subst hd
      rwa [hpc] at hq
    · exact hq
  · intro d hd
    rw [hagent] at hd
    by_cases hdc : d = c
    · subst hdc
      simp [runs]
    · simpa [hdc] using h.proc d hd
  · intro d q hq
    rw [hcode]
    by_cases hd : d = c
    · subst hd
      simp only [Function.update_self, Option.some.injEq] at hq
      subst hq
      simp [expects]
    · simp only [Function.update_of_ne hd] at hq
      have hqi : q ≠ i := by
        rintro rfl
        exact hoff d hq
      simpa [hqi, hd] using h.state d q hq
  · intro d d' q hd hd'
    by_cases hdc : d = c
    · by_cases hdc' : d' = c
      · rw [hdc, hdc']
      · subst hdc
        simp only [Function.update_self, Function.update_of_ne hdc', Option.some.injEq] at hd hd'
        subst hd
        exact absurd hd' (hoff d')
    · by_cases hdc' : d' = c
      · subst hdc'
        simp only [Function.update_self, Function.update_of_ne hdc, Option.some.injEq] at hd hd'
        subst hd'
        exact absurd hd (hoff d)
      · simp only [Function.update_of_ne hdc, Function.update_of_ne hdc'] at hd hd'
        exact h.unique d d' q hd hd'
  · intro q hq
    by_cases hqi : q = i
    · exact ⟨c, by simp [hqi]⟩
    · simp only [proc_setProc, if_neg hqi] at hq
      obtain ⟨d, hd⟩ := h.running q hq
      have hdc : d ≠ c := by
        rintro rfl
        rw [hnone] at hd
        cases hd
      exact ⟨d, by simp [hdc, hd]⟩
  · intro q hq
    simp only [hagent] at hq
    simp only [proc_setProc, thread_setProc]
    split_ifs with hqi
    · subst hqi
      intro _ _
      exact h.context q hq (by rw [hs]; decide) (by rw [hs]; decide)
    · exact h.context q hq
  · intro d q hq
    rw [hagent] at hq
    have hdc : d ≠ c := by
      rintro rfl
      rw [hok] at hq
      cases hq
    simpa [hdc] using h.back d q hq

theorem thread_of_switchTo (h : Control f s) {i : Slot} (hpc : s.code c = .switchTo i) :
    (s.cpu c).proc = some i ∧ s.agent c = none ∧ (s.proc i).state = .running ∧
      Resumes f i (s.thread i) ∧ (s.proc i).context = s.thread i := by
  have hok := h.ok c
  rw [hpc, Ok] at hok
  have hpcc : (s.cpu c).pc = .switchTo i := by rw [← code_of_scheduler hok, hpc]
  have hproc : (s.cpu c).proc = some i := by
    rw [h.proc c hok, hpcc]
    rfl
  have hst := h.state c i hproc
  rw [hpc] at hst
  have hrun : (s.proc i).state = .running := hst
  refine ⟨hproc, hok, hrun, h.context i ?_ (by rw [hrun]; decide) (by rw [hrun]; decide)⟩
  intro d hd
  have hdc := h.unique d c i (proc_of_agent hd) hproc
  subst hdc
  rw [hok] at hd
  cases hd

theorem switchTo (h : Control f s) {i : Slot} (hpc : s.code c = .switchTo i) :
    Control f { s with
      cpu := Function.update s.cpu c { s.cpu c with context := .back i, pc := .away }
      thread := Function.update s.thread i (s.proc i).context } := by
  obtain ⟨hproc, hnone, hrun, hres, hctx⟩ := h.thread_of_switchTo hpc
  rw [hctx, Function.update_eq_self]
  have hagent : ∀ d, ({ s with
      cpu := Function.update s.cpu c { s.cpu c with context := .back i, pc := .away } } :
        Kernel N σ K).agent d = if d = c then some i else s.agent d := by
    intro d
    by_cases hd : d = c
    · subst hd
      simp [agent, hproc]
    · simp [agent, hd]
  have hcode : ∀ d, ({ s with
      cpu := Function.update s.cpu c { s.cpu c with context := .back i, pc := .away } } :
        Kernel N σ K).code d = if d = c then s.thread i else s.code d := by
    intro d
    unfold code
    rw [hagent]
    by_cases hd : d = c
    · subst hd
      simp
    · simp [hd]
  have hcproc : ∀ d, (Function.update s.cpu c { s.cpu c with context := .back i, pc := .away } d).proc =
      (s.cpu d).proc := by
    intro d
    by_cases hd : d = c
    · subst hd
      simp
    · simp [hd]
  constructor
  · intro d
    rw [hcode, hagent]
    split_ifs with hd
    · exact hres.2.2.2.2
    · exact h.ok d
  · intro d q
    rw [hcode]
    have hq := h.plock d q
    split_ifs with hd
    · subst hd
      rw [hpc] at hq
      rwa [hres.1]
    · exact hq
  · intro d m
    rw [hcode]
    have hq := h.lock d m
    split_ifs with hd
    · subst hd
      rw [hpc] at hq
      rwa [hres.2.1]
    · exact hq
  · intro d hd
    rw [hagent] at hd
    split_ifs at hd with hdc
    simpa [hdc] using h.proc d hd
  · intro d q hq
    rw [hcode]
    simp only [hcproc] at hq
    split_ifs with hd
    · subst hd
      obtain rfl : i = q := Option.some.inj (hproc.symm.trans hq)
      rw [hrun]
      exact hres.2.2.1
    · exact h.state d q hq
  · intro d d' q hd hd'
    simp only [hcproc] at hd hd'
    exact h.unique d d' q hd hd'
  · intro q hq
    obtain ⟨d, hd⟩ := h.running q hq
    exact ⟨d, by rw [hcproc, hd]⟩
  · intro q hq
    apply h.context q
    intro d hd
    have := hq d
    rw [hagent] at this
    split_ifs at this with hdc
    · rw [hdc, hnone] at hd
      cases hd
    · exact this hd
  · intro d q hq
    rw [hagent] at hq
    split_ifs at hq with hdc
    · subst hdc
      simp [Option.some.inj hq]
    · simpa [hdc] using h.back d q hq

theorem swtch (h : Control f s) (hpc : s.code c = .swtch p k) :
    Control f { s.setProc p { s.proc p with context := k } with
      cpu := Function.update s.cpu c { s.cpu c with pc := (s.cpu c).context }
      thread := Function.update s.thread p k } := by
  have hok := h.ok c
  rw [hpc, Ok] at hok
  obtain ⟨hp, hk⟩ := hok
  have hproc := proc_of_agent hp
  have hst := h.state c p hproc
  rw [hpc] at hst
  rw [h.back c p hp]
  set t : Kernel N σ K := { s.setProc p { s.proc p with context := k } with
    cpu := Function.update s.cpu c { s.cpu c with pc := .back p }
    thread := Function.update s.thread p k } with ht
  have hagent : ∀ d, t.agent d = if d = c then none else s.agent d := by
    intro d
    by_cases hd : d = c
    · simp [ht, agent, hd]
    · simp [ht, agent, hd]
  have hcode : ∀ d, t.code d = if d = c then .back p else s.code d := by
    intro d
    unfold code
    rw [hagent]
    by_cases hd : d = c
    · simp [ht, hd]
    · simp only [if_neg hd]
      cases ha : s.agent d with
      | none => simp [ht, hd]
      | some q =>
        have hqp : q ≠ p := by
          rintro rfl
          exact hd (h.agent_unique ha hp)
        simp [ht, hqp]
  have hcproc : ∀ d, (t.cpu d).proc = (s.cpu d).proc := by
    intro d
    by_cases hd : d = c
    · simp [ht, hd]
    · simp [ht, hd]
  have hstate : ∀ q, (t.proc q).state = (s.proc q).state := by
    intro q
    by_cases hq : q = p
    · simp [ht, hq]
    · simp [ht, hq]
  constructor
  · intro d
    rw [hcode, hagent]
    split_ifs with hd
    · rfl
    · exact h.ok d
  · intro d q
    rw [hcode]
    have hq := h.plock d q
    split_ifs with hd
    · subst hd
      rwa [hpc] at hq
    · exact hq
  · intro d m
    rw [hcode]
    have hm := h.lock d m
    split_ifs with hd
    · subst hd
      rwa [hpc] at hm
    · exact hm
  · intro d hd
    rw [hagent] at hd
    rw [hcproc]
    split_ifs at hd with hdc
    · subst hdc
      simp [ht, runs, hproc]
    · simpa [ht, hdc] using h.proc d hd
  · intro d q hq
    rw [hcode, hstate]
    rw [hcproc] at hq
    split_ifs with hd
    · subst hd
      obtain rfl : p = q := Option.some.inj (hproc.symm.trans hq)
      exact leaves_cases hst
    · exact h.state d q hq
  · intro d d' q hd hd'
    rw [hcproc] at hd hd'
    exact h.unique d d' q hd hd'
  · intro q hq
    rw [hstate] at hq
    obtain ⟨d, hd⟩ := h.running q hq
    exact ⟨d, by rw [hcproc, hd]⟩
  · intro q hq h1 h2
    rw [hstate] at h1 h2
    by_cases hqp : q = p
    · subst hqp
      rcases hk with rfl | hk
      · exact absurd hst h2
      · rw [hp] at hk
        have hth : t.thread q = k := by simp [ht]
        rw [hth]
        exact ⟨hk, by simp [ht]⟩
    · have : ∀ d, s.agent d ≠ some q := by
        intro d hd
        have := hq d
        rw [hagent] at this
        split_ifs at this with hdc
        · subst hdc
          exact hqp (Option.some.inj (hd.symm.trans hp))
        · exact this hd
      simpa [ht, hqp] using h.context q this h1 h2
  · intro d q hq
    rw [hagent] at hq
    split_ifs at hq with hdc
    simpa [ht, hdc] using h.back d q hq

theorem backStep (h : Control f s) {i : Slot} (hpc : s.code c = .back i) :
    Control f { s with
      cpu := Function.update s.cpu c
        { s.cpu c with proc := none, pc := .release i (.scan (i + 1)) } } := by
  have hok := h.ok c
  rw [hpc, Ok] at hok
  have hpcc : (s.cpu c).pc = .back i := by rw [← code_of_scheduler hok, hpc]
  have hproc : (s.cpu c).proc = some i := by
    rw [h.proc c hok, hpcc]
    rfl
  have hst := h.state c i hproc
  rw [hpc] at hst
  have hagent : ∀ d, ({ s with
      cpu := Function.update s.cpu c
        { s.cpu c with proc := none, pc := .release i (.scan (i + 1)) } } :
        Kernel N σ K).agent d = s.agent d := by
    intro d
    by_cases hd : d = c
    · subst hd
      rw [hok]
      simp [agent]
    · simp [agent, hd]
  have hcode : ∀ d, ({ s with
      cpu := Function.update s.cpu c
        { s.cpu c with proc := none, pc := .release i (.scan (i + 1)) } } :
        Kernel N σ K).code d = if d = c then .release i (.scan (i + 1)) else s.code d := by
    intro d
    unfold code
    rw [hagent]
    by_cases hd : d = c
    · subst hd
      simp [hok]
    · simp [hd]
  constructor
  · intro d
    rw [hcode, hagent]
    split_ifs with hd
    · subst hd
      simp [Ok, holds, naps, hok]
    · exact h.ok d
  · intro d q
    rw [hcode]
    have hq := h.plock d q
    split_ifs with hd
    · subst hd
      rw [hpc] at hq
      simpa [holds] using hq
    · exact hq
  · intro d m
    rw [hcode]
    have hq := h.lock d m
    split_ifs with hd
    · subst hd
      rw [hpc] at hq
      simpa [holdsLk] using hq
    · exact hq
  · intro d hd
    rw [hagent] at hd
    by_cases hdc : d = c
    · subst hdc
      simp [runs]
    · simpa [hdc] using h.proc d hd
  · intro d q hq
    rw [hcode]
    by_cases hd : d = c
    · subst hd
      simp at hq
    · simp only [Function.update_of_ne hd] at hq
      simpa [hd] using h.state d q hq
  · intro d d' q hd hd'
    by_cases hdc : d = c
    · subst hdc
      simp at hd
    · by_cases hdc' : d' = c
      · subst hdc'
        simp at hd'
      · simp only [Function.update_of_ne hdc, Function.update_of_ne hdc'] at hd hd'
        exact h.unique d d' q hd hd'
  · intro q hq
    obtain ⟨d, hd⟩ := h.running q hq
    have hdc : d ≠ c := by
      rintro rfl
      obtain rfl : i = q := Option.some.inj (hproc.symm.trans hd)
      rw [hq] at hst
      simp [expects] at hst
    exact ⟨d, by simp [hdc, hd]⟩
  · intro q hq
    simp only [hagent] at hq
    exact h.context q hq
  · intro d q hq
    rw [hagent] at hq
    have hdc : d ≠ c := by
      rintro rfl
      rw [hok] at hq
      cases hq
    simpa [hdc] using h.back d q hq

theorem running_of_unlocked (h : Control f s) (hp : s.agent c = some p)
    (hl : (s.code c).holds p = false) : (s.proc p).state = .running := by
  have hok := h.ok c
  rw [hp] at hok
  by_contra hs
  have := holds_of_expects hok (h.state c p (proc_of_agent hp)) hs
  rw [hl] at this
  cases this

theorem unlocked (h : Control f s) (hp : s.agent c = some p) (hl : ∀ q, s.plock q ≠ some c)
    (hl' : ∀ l, s.lock l ≠ some c) :
    (∀ q, (s.thread p).holds q = false) ∧ (∀ m, (s.thread p).holdsLk f m = false) ∧
      (s.thread p).naps = none := by
  have hcode := code_of_agent hp
  have hholds : ∀ q, (s.thread p).holds q = false := by
    intro q
    rw [← Bool.not_eq_true, ← hcode, ← h.plock]
    exact hl q
  have hlock : ∀ m, (s.thread p).holdsLk f m = false := by
    intro m
    rw [← Bool.not_eq_true, ← hcode, ← h.lock]
    exact hl' m
  refine ⟨hholds, hlock, ?_⟩
  have hok := h.ok c
  rw [hcode, hp] at hok
  by_contra hne
  obtain ⟨⟨chan, lk⟩, hsome⟩ := Option.ne_none_iff_exists'.mp hne
  rcases holds_of_naps hok hsome with hlk | hh
  · rw [hlock] at hlk
    cases hlk
  · rw [hholds] at hh
    cases hh

theorem preempt (h : Control f s) (hp : s.agent c = some p) (hl : ∀ q, s.plock q ≠ some c)
    (hl' : ∀ l, s.lock l ≠ some c) :
    Control f (s.goto c (.acquire p (.yielding p (s.thread p)))) := by
  have hcode := code_of_agent hp
  obtain ⟨hholds, hlock, hnaps⟩ := h.unlocked hp hl hl'
  have hok := h.ok c
  rw [hcode, hp] at hok
  have hrun := h.running_of_unlocked hp (by rw [hcode, hholds])
  have hexp := h.state c p (proc_of_agent hp)
  rw [hcode, hrun] at hexp
  refine (h.modify_me (r := s.proc p) (k := .acquire p (.yielding p (s.thread p))) ⟨?_, ?_, ?_, ?_⟩
    hp hrun).congr ?_ rfl rfl rfl rfl
  · exact ⟨fun _ => rfl, rfl, rfl, (by simp [naps]), rfl, hholds, hlock, hexp, hnaps, hok⟩
  · simp [holds, hcode, hholds]
  · simp [holdsLk, hcode, hlock]
  · rw [hcode]
    cases hk : s.thread p with
    | switchTo i | back i =>
      rw [hk] at hok
      cases hok
    | _ => rfl
  · simp [setProc]

theorem code_birth (start : K) {i : Slot} (hoff : ∀ d, (s.cpu d).proc ≠ some i) (d : Fin N) :
    (s.birth start i).code d = s.code d := by
  have hagent : (s.birth start i).agent d = s.agent d := rfl
  unfold code
  rw [hagent]
  cases ha : s.agent d with
  | none => rfl
  | some q =>
    have hqi : q ≠ i := by
      rintro rfl
      exact hoff d (proc_of_agent ha)
    simp [Kernel.birth, hqi]

theorem birth (h : Control f s) {start : K} {i : Slot} (hstart : ∀ l, f start l = false)
    (hoff : ∀ d, (s.cpu d).proc ≠ some i) : Control f (s.birth start i) := by
  have hagent : ∀ d, (s.birth start i).agent d = s.agent d := fun _ => rfl
  have hcode := code_birth start hoff
  have hproc : ∀ q, q ≠ i → (s.birth start i).proc q = s.proc q := by
    intro q hq
    simp [Kernel.birth, hq]
  constructor
  · intro d
    rw [hcode, hagent]
    exact h.ok d
  · intro d q
    rw [hcode]
    exact h.plock d q
  · intro d m
    rw [hcode]
    exact h.lock d m
  · exact h.proc
  · intro d q hq
    have hqi : q ≠ i := by
      rintro rfl
      exact hoff d hq
    rw [hcode, hproc q hqi]
    exact h.state d q hq
  · exact h.unique
  · intro q hq
    by_cases hqi : q = i
    · simp [Kernel.birth, hqi] at hq
    · rw [hproc q hqi] at hq
      exact h.running q hq
  · intro q hq h1 h2
    by_cases hqi : q = i
    · subst hqi
      refine ⟨⟨?_, ?_, ?_, ?_⟩, ?_⟩
      · simp [Kernel.birth, holds]
      · intro m
        cases m <;> simp [Kernel.birth, holdsLk, hstart]
      · simp [Kernel.birth, expects]
      · simp [Kernel.birth, naps, Ok, holds]
      · simp [Kernel.birth]
    · rw [hproc q hqi] at h1 h2 ⊢
      have hth : (s.birth start i).thread q = s.thread q := by simp [Kernel.birth, hqi]
      rw [hth]
      exact h.context q hq h1 h2
  · exact h.back

end Control

end Xv6.Sched
