import Xv6.Sched.Exec

/-! `kill` looks for a pid, and an entry of `proc[]` that is not in use has pid 0. A process is
marked as killed only by a call that names it as long as no call names pid 0. -/
namespace Xv6.Sched

open Proc (ProcState)
open Pc Kernel

variable {N : ℕ} {σ K : Type} {client : Client σ K} {init : σ → Prop} {s t : Kernel N σ K}
  {c : Fin N} {p : Slot} {k k' : Pc K}

def Call.KillsZero (_ : K) : Call K → Prop
  | kill pid _ => pid = 0
  | _ => False

def Pc.compares : Pc K → Option (BitVec 32 × Slot)
  | killOne pid j _ => some (pid, j)
  | _ => none

/-- The calls of `kill` and `setkilled` since a process was allocated account for its flag. -/
structure Kills (s : Kernel N σ K) : Prop where
  unused : ∀ p, (s.proc p).state = .unused → (s.proc p).pid = 0 ∧ (s.proc p).killed = false
  killed : ∀ p, (s.proc p).killed = true →
    s.hist.since p (s.proc p).pid = true ∨ s.hist.named p = true
  killing : ∀ q pid, (s.thread q).killing = some pid → pid ≠ 0 ∧ ∀ p, s.hist.since p pid = true

namespace Kills

theorem frame (h : Kills s)
    (hth : ∀ q pid, (t.thread q).killing = some pid → (s.thread q).killing = some pid)
    (hproc : ∀ q, (t.proc q).pid = (s.proc q).pid ∧ (t.proc q).killed = (s.proc q).killed ∧
      ((t.proc q).state = .unused → (s.proc q).state = .unused))
    (hsince : t.hist.since = s.hist.since) (hnamed : t.hist.named = s.hist.named) : Kills t := by
  constructor
  · intro p hp
    rw [(hproc p).1, (hproc p).2.1]
    exact h.unused p ((hproc p).2.2 hp)
  · intro p
    rw [(hproc p).1, (hproc p).2.1, hsince, hnamed]
    exact h.killed p
  · intro q pid hq
    rw [hsince]
    exact h.killing q pid (hth q pid hq)

theorem killing_goto (hpc : s.code c = k') (hk : k.killing = k'.killing ∨ k.killing = none)
    (hth : t.thread = (s.goto c k).thread) (q : Slot) (pid : BitVec 32)
    (hq : (t.thread q).killing = some pid) : (s.thread q).killing = some pid := by
  rw [hth, thread_goto] at hq
  split_ifs at hq with hc
  · rcases hk with hk | hk
    · rw [← code_of_agent hc, hpc, ← hk, hq]
    · rw [hk] at hq
      cases hq
  · exact hq

theorem of_goto (h : Kills s) (hth : t.thread = (s.goto c k).thread) (hpc : s.code c = k')
    (hk : k.killing = k'.killing ∨ k.killing = none) (hproc : t.proc = s.proc)
    (hsince : t.hist.since = s.hist.since) (hnamed : t.hist.named = s.hist.named) : Kills t := by
  refine h.frame (killing_goto hpc hk hth) ?_ hsince hnamed
  intro q
  rw [hproc]
  exact ⟨rfl, rfl, id⟩

theorem of_setProc (h : Kills s) {r : Process K} (hth : t.thread = (s.goto c k).thread)
    (hproc : t.proc = ((s.goto c k).setProc p r).proc) (hpc : s.code c = k')
    (hk : k.killing = k'.killing ∨ k.killing = none)
    (hsince : t.hist.since = s.hist.since) (hnamed : t.hist.named = s.hist.named)
    (hpid : r.pid = (s.proc p).pid) (hkilled : r.killed = (s.proc p).killed)
    (hr : r.state = .unused → (s.proc p).state = .unused) : Kills t := by
  refine h.frame (killing_goto hpc hk hth) ?_ hsince hnamed
  intro q
  rw [hproc, proc_setProc, proc_goto]
  split_ifs with hqp
  · subst hqp
    exact ⟨hpid, hkilled, hr⟩
  · exact ⟨rfl, rfl, id⟩

theorem of_free (h : Kills s) (hth : t.thread = (s.goto c k).thread)
    (hproc : t.proc = ((s.goto c k).setProc p (s.proc p).free).proc) (hpc : s.code c = k')
    (hk : k.killing = k'.killing ∨ k.killing = none)
    (hsince : t.hist.since = s.hist.since) (hnamed : t.hist.named = s.hist.named) : Kills t := by
  have hcases : ∀ q, t.proc q = if q = p then (s.proc p).free else s.proc q := by
    intro q
    rw [hproc, proc_setProc, proc_goto]
  constructor
  · intro q
    rw [hcases]
    split_ifs with hqp
    · exact fun _ => ⟨rfl, rfl⟩
    · exact h.unused q
  · intro q
    rw [hcases, hsince, hnamed]
    split_ifs with hqp
    · rintro ⟨⟩
    · exact h.killed q
  · intro q pid hq
    rw [hsince]
    exact h.killing q pid (killing_goto hpc hk hth q pid hq)

theorem mark (h : Kills s) {r : Process K} (hth : t.thread = (s.goto c k).thread)
    (hproc : ∀ q, t.proc q = if q = p then r else s.proc q) (hpc : s.code c = k')
    (hk : k.killing = k'.killing ∨ k.killing = none) (hsince : t.hist.since = s.hist.since)
    (hnamed : ∀ q, s.hist.named q = true → t.hist.named q = true)
    (hpid : r.pid = (s.proc p).pid) (hr : r.state ≠ .unused)
    (hacc : s.hist.since p (s.proc p).pid = true ∨ t.hist.named p = true) : Kills t := by
  constructor
  · intro q
    rw [hproc]
    split_ifs with hqp
    · exact fun hu => absurd hu hr
    · exact h.unused q
  · intro q
    rw [hproc, hsince]
    split_ifs with hqp
    · subst hqp
      rw [hpid]
      exact fun _ => hacc
    · intro hq
      exact (h.killed q hq).imp id (hnamed q)
  · intro q pid hq
    rw [hsince]
    exact h.killing q pid (killing_goto hpc hk hth q pid hq)

theorem found (hc : Control client.holds s) (h : Kills s) {pid : BitVec 32} {j : Slot} {x : ℤ → K}
    (hpc : s.code c = .killOne pid j x) (hp : (s.proc j).pid = pid) :
    (s.proc j).state ≠ .unused ∧ s.hist.since j (s.proc j).pid = true := by
  have hok := hc.ok c
  rw [hpc, Ok] at hok
  obtain ⟨q, hq⟩ := Option.isSome_iff_exists.mp hok.1
  have hk := h.killing q pid (by rw [← code_of_agent hq, hpc]; rfl)
  constructor
  · intro hu
    exact hk.1 (hp.symm.trans (h.unused j hu).1)
  · rw [hp]
    exact hk.2 j

theorem begin (h : Kills s) {start : K} {i : Slot} (hs : (s.proc i).state = .unused)
    (hk : k.killing = none) : Kills ((s.birth start i).goto c k) := by
  have hle : ∀ q pid, (((s.birth start i).goto c k).thread q).killing = some pid →
      (s.thread q).killing = some pid := by
    intro q pid hq
    rw [thread_goto] at hq
    split_ifs at hq with hc
    · rw [hk] at hq
      cases hq
    · by_cases hqi : q = i
      · simp [Kernel.birth, hqi, Pc.killing] at hq
      · simpa [Kernel.birth, hqi] using hq
  have hfree := h.unused i hs
  constructor
  · intro q
    by_cases hqi : q = i
    · simp [Kernel.birth, hqi]
    · simpa [Kernel.birth, hqi] using h.unused q
  · intro q
    by_cases hqi : q = i
    · simp [Kernel.birth, hqi, hfree.2]
    · simpa [Kernel.birth, hqi] using h.killed q
  · intro q pid hq
    have hold := hle q pid hq
    refine ⟨(h.killing q pid hold).1, fun p => ?_⟩
    by_cases hpi : p = i
    · simp only [hist_goto, Kernel.birth, hpi, Function.update_self, decide_eq_true_eq]
      exact ⟨q, hold⟩
    · simpa [Kernel.birth, hpi] using (h.killing q pid hold).2 p

/-- A step keeps the flags accounted for by the calls of `kill` and `setkilled`. -/
theorem step (hz : ∀ p x d k, ¬client.calls p x d (.kill 0 k)) (hc : Control client.holds s)
    (h : Kills s) (hst : Step client s t) : Kills t := by
  cases hst with
  | pick c i hpc hr =>
    refine h.frame (fun _ _ => id) (fun q => ?_) rfl rfl
    by_cases hq : q = i
    · simp [hq]
    · simp [hq]
  | switchTo c i hpc =>
    obtain ⟨-, -, -, -, hctx⟩ := hc.thread_of_switchTo hpc
    rw [hctx, Function.update_eq_self]
    exact ⟨h.unused, h.killed, h.killing⟩
  | back c i hpc => exact ⟨h.unused, h.killed, h.killing⟩
  | swtch c p k hpc =>
    have hok := hc.ok c
    rw [hpc, Ok] at hok
    exact h.of_setProc (k := k) (p := p) (r := { s.proc p with context := k })
      (by simp [goto, hok.1]) (by simp [setProc]) hpc (Or.inl rfl) rfl rfl rfl rfl id
  | preempt c p hp hl hl' =>
    exact h.of_goto rfl (code_of_agent hp) (by simp [Pc.killing]) (by simp) (by simp) (by simp)
  | yielding c p k hpc =>
    exact h.of_setProc rfl rfl hpc (by simp [Pc.killing]) (by simp) (by simp) rfl rfl (by simp)
  | sleeping c chan p k hpc =>
    exact h.of_setProc rfl rfl hpc (by simp [Pc.killing]) (by simp) (by simp) rfl rfl (by simp)
  | tidy c p k hpc =>
    exact h.of_setProc (p := p) rfl rfl hpc (by simp [Pc.killing]) rfl rfl rfl rfl id
  | wakeOne c chan j k hpc hs hchan =>
    exact h.of_setProc (p := j) rfl rfl hpc (by simp [Pc.killing]) (by simp [rouse])
      (by simp [rouse]) (by simp) (by simp) (by simp)
  | killSleeping c pid j x hpc hp hs =>
    refine h.mark (p := j) (r := { s.proc j with killed := true, state := .runnable })
      (k := .release j (.client (x 0))) rfl (fun q => ?_) hpc (by simp [Pc.killing])
      (by simp [rouse]) (by simp [rouse]) rfl (by simp) (Or.inl (h.found hc hpc hp).2)
    by_cases hq : q = j
    · simp [hq]
    · simp [hq]
  | killOne c pid j x hpc hp hs =>
    obtain ⟨hu, hsince⟩ := h.found hc hpc hp
    exact h.mark (p := j) (r := { s.proc j with killed := true }) rfl (by simp) hpc
      (by simp [Pc.killing]) (by simp) (by simp) rfl hu (Or.inl hsince)
  | setKilled c p x hpc =>
    have hok := hc.ok c
    rw [hpc, Ok] at hok
    have hst := hc.state c p (proc_of_agent hok.1)
    rw [hpc] at hst
    refine h.mark (p := p) (r := { s.proc p with killed := true }) (k := .release p (.client x)) rfl
      (by simp) hpc (by simp [Pc.killing]) rfl ?_ rfl (by simp [show _ = _ from hst])
      (Or.inr (by simp))
    intro q hq
    by_cases hqp : q = p
    · simp [hqp]
    · simp [hqp, hq]
  | allocOne c p i x hpc hs => exact h.begin hs rfl
  | forkFail c p np x hpc =>
    exact h.of_free rfl rfl hpc (by simp [Pc.killing]) (by simp) (by simp)
  | setParent c p np pid x hpc =>
    exact h.of_setProc rfl rfl hpc (by simp [Pc.killing]) (by simp) (by simp) rfl rfl id
  | setRunnable c np pid x hpc =>
    exact h.of_setProc rfl rfl hpc (by simp [Pc.killing]) (by simp) (by simp) rfl rfl (by simp)
  | reparent c p status i hpc hp =>
    exact h.of_setProc (p := i) rfl rfl hpc (by simp [Pc.killing]) (by simp [enterWakeup])
      (by simp [enterWakeup]) rfl rfl id
  | zombie c p status hpc =>
    exact h.of_setProc (p := p) rfl rfl hpc (by simp [Pc.killing]) rfl rfl rfl rfl (by simp)
  | waitFree c p i x hpc hs => exact h.of_free rfl rfl hpc (by simp [Pc.killing]) rfl rfl
  | callKill c p x pid k hpc hp hcall =>
    have hpid : pid ≠ 0 := by
      rintro rfl
      exact hz _ _ _ _ hcall
    refine ⟨by simpa using h.unused, ?_, ?_⟩
    · intro q hq
      simp only [proc_goto] at hq ⊢
      rcases h.killed q hq with hs | hn
      · left
        by_cases hqp : (s.proc q).pid = pid
        · simp [hqp]
        · simp [hqp, hs]
      · exact Or.inr hn
    · intro q pid' hq
      simp only [thread_goto] at hq
      split_ifs at hq with ha
      · obtain rfl : pid = pid' := Option.some.inj hq
        exact ⟨hpid, by simp⟩
      · obtain ⟨hne, hs⟩ := h.killing q pid' hq
        refine ⟨hne, fun p => ?_⟩
        by_cases hpp : pid' = pid
        · simp [hpp]
        · simp [hpp, hs]
  | device d hd => exact ⟨h.unused, h.killed, h.killing⟩
  | _ =>
    exact h.of_goto rfl ‹_› (by simp [Pc.killing, Pc.sleep]) (by simp)
      (by simp [enterLock, enterSleep, enterWakeup]) (by simp [enterLock, enterSleep, enterWakeup])

theorem born (h : Kills s) (hst : Step client s t) {i : Slot}
    (hb : t.hist.births i ≠ s.hist.births i) : (t.proc i).killed = false := by
  cases hst with
  | allocOne c p j x hpc hs =>
    by_cases hij : i = j
    · subst hij
      simpa [Kernel.birth] using (h.unused i hs).2
    · simp [Kernel.birth, hij] at hb
  | _ => simp [enterLock, enterSleep, enterWakeup, rouse] at hb

end Kills

theorem Initial.kills (h : Initial client init s) : Kills s := by
  constructor
  · intro p hp
    by_cases hi : p = initproc
    · rw [hi, h.first] at hp
      cases hp
    · exact ⟨(h.others p hi).2.2.2.1, (h.others p hi).2.2.1⟩
  · intro p hp
    by_cases hi : p = initproc
    · rw [hi, h.first] at hp
      cases hp
    · rw [(h.others p hi).2.2.1] at hp
      cases hp
  · intro q pid hq
    by_cases hi : q = initproc
    · rw [hi, h.thread] at hq
      cases hq
    · rw [h.idle q hi] at hq
      cases hq

theorem reachable_kills (hz : ∀ p x d k, ¬client.calls p x d (.kill 0 k))
    (h : (machine N client init).Reachable s) : Kills s := by
  apply h.invariant (I := Kills)
  · intro s hs
    exact Initial.kills hs
  · intro s t hr hs hst
    exact hs.step hz (reachable_control hr).1 hst

/-- As long as no process calls `kill(0)`, `kill` returns 0 only when it has found a process that is
in use, a process is marked only by calls that name it since it was allocated, and a new process is
not marked. -/
theorem kill_hits_named (h : (machine N (client.without Call.KillsZero) init).Reachable s) :
    (∀ c pid j, (s.code c).compares = some (pid, j) → (s.proc j).pid = pid →
      (s.proc j).state ≠ .unused) ∧
    (∀ p, (s.proc p).killed = true →
      s.hist.since p (s.proc p).pid = true ∨ s.hist.named p = true) ∧
    (∀ t i, Step (client.without Call.KillsZero) s t → t.hist.births i ≠ s.hist.births i →
      (t.proc i).killed = false) := by
  have hz : ∀ p x d k, ¬(client.without Call.KillsZero).calls p x d (.kill 0 k) := by
    rintro p x d k ⟨-, hne⟩
    exact hne rfl
  have hk := reachable_kills hz h
  refine ⟨?_, hk.killed, ?_⟩
  · intro c pid j hpc hp
    cases hcode : s.code c with
    | killOne pid' j' x =>
      rw [hcode] at hpc
      cases hpc
      exact (hk.found (reachable_control h).1 hcode hp).1
    | _ =>
      rw [hcode] at hpc
      cases hpc
  · intro t i hst hb
    exact hk.born hst hb

/-- The first process runs on the only CPU, and is about to make its first call. -/
def started : Kernel 1 Unit Unit := (boot 1 processes ()).exec () 0 5

theorem kill_hits_named_self : ∃ s : Kernel 1 Unit Unit,
    (s.proc initproc).killed = true ∧
      (s.hist.since initproc (s.proc initproc).pid = true ∨ s.hist.named initproc = true) := by
  have h₀ : (machine 1 (processes.without Call.KillsZero) fun _ => True).Reachable
      (boot 1 (processes.without Call.KillsZero) ()) := .init (boot_initial trivial)
  have h₁ := Reachable.exec (Reachable.call (Reachable.exec h₀ 0 5) 0 initproc () (.kill 1 fun _ => ())
    (by decide +kernel) ⟨trivial, (by rintro ⟨⟩)⟩) 0 3
  have hk : (((((boot 1 (processes.without Call.KillsZero) ()).exec () 0 5).call 0 initproc
      (.kill 1 fun _ => ())).exec () 0 3).proc initproc).killed = true := by decide +kernel
  exact ⟨_, hk, (kill_hits_named h₁).2.1 initproc hk⟩

/-- `kill(0)` has come to the second entry of `proc[]`. -/
def killingZero : Kernel 1 Unit Unit :=
  (started.call 0 initproc (.kill 0 fun _ => ())).exec () 0 6

/-- The first process has called `kill(0)` and then `fork`, which has taken that entry. -/
def forkedAfter : Kernel 1 Unit Unit :=
  ((killingZero.exec () 0 2).call 0 initproc (.fork fun _ => ())).exec () 0 7

/-- `kill(0)` finds the first entry of `proc[]` that is not in use, and the process that `fork` puts
there is marked from the beginning. -/
theorem kill_zero_hits_unused :
    (∃ (s : Kernel 1 Unit Unit) (j : Slot), (machine 1 processes fun _ => True).Reachable s ∧
      (s.code 0).compares = some (0, j) ∧ (s.proc j).pid = 0 ∧ (s.proc j).state = .unused) ∧
    ∃ (s : Kernel 1 Unit Unit) (np : Slot), (machine 1 processes fun _ => True).Reachable s ∧
      (s.code 0).forking = some np ∧ (s.proc np).killed = true ∧
      s.hist.since np (s.proc np).pid = false ∧ s.hist.named np = false := by
  have h₀ : (machine 1 processes fun _ => True).Reachable (boot 1 processes ()) :=
    .init (boot_initial trivial)
  have h₁ : (machine 1 processes fun _ => True).Reachable killingZero :=
    Reachable.exec (Reachable.call (Reachable.exec h₀ 0 5) 0 initproc () (.kill 0 fun _ => ())
      (by decide +kernel) trivial) 0 6
  have h₂ : (machine 1 processes fun _ => True).Reachable forkedAfter :=
    Reachable.exec (Reachable.call (Reachable.exec h₁ 0 2) 0 initproc () (.fork fun _ => ())
      (by decide +kernel) trivial) 0 7
  refine ⟨⟨killingZero, ⟨1, by decide⟩, h₁, ?_, ?_, ?_⟩, forkedAfter, ⟨1, by decide⟩, h₂, ?_, ?_, ?_,
    ?_⟩
  all_goals decide +kernel

end Xv6.Sched
