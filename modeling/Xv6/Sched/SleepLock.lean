import Xv6.Sched.Monitor

/-! Sleep locks (`kernel/sleeplock.c`). The channel of a sleep lock is its own address, and its
spin lock protects `locked` and `pid`. -/
namespace Xv6.Sched

open Pc Kernel

/-- `struct sleeplock`. The process stands for its pid. -/
structure SleepLock where
  locked : Bool
  pid : Option Slot
  deriving DecidableEq

/-- Where a process is in the functions on the sleep lock `l`. It has acquired and not released the
locks in `has`. -/
inductive SleepPc where
  | idle (has : Finset ℕ)
  | acquiresleep (l : ℕ) (has : Finset ℕ)
  | acquired (l : ℕ) (has : Finset ℕ)
  | releasesleep (l : ℕ) (has : Finset ℕ)
  | unlocked (l : ℕ) (has : Finset ℕ)
  | released (l : ℕ) (has : Finset ℕ)
  | holdingsleep (l : ℕ) (has : Finset ℕ)
  deriving DecidableEq

namespace SleepPc

def holds : SleepPc → ℕ → Bool
  | idle _, _ => false
  | acquiresleep l _, m | acquired l _, m | releasesleep l _, m | unlocked l _, m | released l _, m
  | holdingsleep l _, m => decide (m = l)

def between : SleepPc → ℕ → Bool
  | idle has, m | acquiresleep _ has, m | holdingsleep _ has, m => decide (m ∈ has)
  | acquired l has, m | releasesleep l has, m => decide (m = l ∨ m ∈ has)
  | unlocked l has, m | released l has, m => decide (m ≠ l ∧ m ∈ has)

def owes (l : ℕ) : SleepPc → Bool
  | unlocked l' _ => decide (l' = l)
  | _ => false

end SleepPc

open SleepPc

/-- The calls of processes that use sleep locks, and also fork, exit, wait and kill. A process
releases only locks that it has. -/
inductive SleepCalls : SleepPc → (ℕ → SleepLock) → Call SleepPc → Prop
  | acquiresleep (l has d) : SleepCalls (.idle has) d (.acquire l (.acquiresleep l has))
  | sleep (l has d) (h : (d l).locked = true) :
      SleepCalls (.acquiresleep l has) d (.sleep l l (.acquiresleep l has))
  | acquired (l has d) :
      SleepCalls (.acquired l has) d (.release l (.idle (insert l has)))
  | releasesleep (l has d) (h : l ∈ has) :
      SleepCalls (.idle has) d (.acquire l (.releasesleep l has))
  | unlocked (l has d) : SleepCalls (.unlocked l has) d (.wakeup l (.released l has))
  | released (l has d) :
      SleepCalls (.released l has) d (.release l (.idle (has.erase l)))
  | holdingsleep (l has d) : SleepCalls (.idle has) d (.acquire l (.holdingsleep l has))
  | held (l has d) : SleepCalls (.holdingsleep l has) d (.release l (.idle has))
  | wakeup (chan has d) : SleepCalls (.idle has) d (.wakeup chan (.idle has))
  | killed (has d) : SleepCalls (.idle has) d (.killed fun _ => .idle has)
  | setkilled (has d) : SleepCalls (.idle has) d (.setkilled (.idle has))
  | kill (pid has d) : SleepCalls (.idle has) d (.kill pid fun _ => .idle has)
  | fork (has d) : SleepCalls (.idle has) d (.fork fun _ => .idle has)
  | exit (status has d) : SleepCalls (.idle has) d (.exit status)
  | wait (has d) : SleepCalls (.idle has) d (.wait fun _ => .idle has)

/-- What `acquiresleep` and `releasesleep` do to the sleep lock. -/
inductive SleepMoves (p : Slot) : SleepPc → (ℕ → SleepLock) → SleepPc → (ℕ → SleepLock) → Prop
  | acquiresleep (l has d) (h : (d l).locked = false) :
      SleepMoves p (.acquiresleep l has) d (.acquired l has) (Function.update d l ⟨true, some p⟩)
  | releasesleep (l has d) :
      SleepMoves p (.releasesleep l has) d (.unlocked l has) (Function.update d l ⟨false, none⟩)

def sleepLocks : Client (ℕ → SleepLock) SleepPc where
  start := .idle ∅
  calls _ := SleepCalls
  moves := SleepMoves
  device _ _ := False
  holds := SleepPc.holds
  start_holds _ := rfl
  calls_keeps h := by cases h <;> simp [Call.Keeps, SleepPc.holds]
  moves_holds h := by cases h <;> simp [SleepPc.holds]

/-- A process between `acquiresleep` and `releasesleep` is the one in `lk->pid`. -/
def Owns (p : Slot) (x : SleepPc) (d : ℕ → SleepLock) : Prop :=
  ∀ l, x.between l = true → d l = ⟨true, some p⟩

theorem sleepLocks_local : sleepLocks.Local Owns where
  start p d l h := by simp [sleepLocks, between] at h
  calls {p x d a y} h hc hy := by
    cases hc with
    | acquired l has d =>
      obtain rfl := hy
      intro m hm
      apply h m
      by_cases hml : m = l
      · simp [between, hml]
      · simpa [between, hml] using hm
    | released l has d =>
      obtain rfl := hy
      intro m hm
      apply h m
      by_cases hml : m = l
      · simp [between, hml] at hm
      · simpa [between, hml] using hm
    | releasesleep l has d hl =>
      obtain rfl := hy
      intro m hm
      apply h m
      by_cases hml : m = l
      · simpa [between, hml] using hl
      · simpa [between, hml] using hm
    | exit status has d => exact hy.elim
    | killed has d | kill pid has d | fork has d | wait has d =>
      obtain ⟨r, rfl⟩ := hy
      exact h
    | _ =>
      obtain rfl := hy
      exact h
  moves {p x d y e} h hm := by
    cases hm with
    | acquiresleep l has d hl =>
      intro m hm
      by_cases hml : m = l
      · simp [hml]
      · rw [Function.update_of_ne hml]
        apply h m
        simpa [between, hml] using hm
    | releasesleep l has d =>
      intro m hm
      by_cases hml : m = l
      · simp [between, hml] at hm
      · rw [Function.update_of_ne hml]
        apply h m
        simpa [between, hml] using hm
  stable {p q x d y e z} h hm hqp _ hz := by
    cases hm with
    | acquiresleep l has d hl =>
      intro m hm
      have hml : m ≠ l := by
        rintro rfl
        rw [hz m hm] at hl
        cases hl
      rw [Function.update_of_ne hml]
      exact hz m hm
    | releasesleep l has d =>
      intro m hm
      have hml : m ≠ l := by
        rintro rfl
        have hp := h m (by simp [between])
        rw [hz m hm] at hp
        cases hp
        exact hqp rfl
      rw [Function.update_of_ne hml]
      exact hz m hm
  device h := h.elim

/-- The code of sleep locks sleeps only while the lock is taken, and wakes the sleepers before it
releases the spin lock. -/
theorem sleepLocks_monitor (l : ℕ) :
    Monitor sleepLocks Owns l l (fun d => (d l).locked = true) (SleepPc.owes l) where
  sleeps _ h := by
    cases h with
    | sleep l has d h => exact ⟨rfl, h⟩
  held {x} h := by
    cases x with
    | unlocked l' has =>
      have : l' = l := by simpa [SleepPc.owes] using h
      simp [holdsLk, sleepLocks, SleepPc.holds, this]
    | _ => cases h
  pays h ho := by
    cases h with
    | unlocked l' has d => exact Or.inl (by simpa [SleepPc.owes] using ho)
    | _ => cases ho
  keeps h ho := by cases h <;> cases ho
  moves h hr := by
    cases h with
    | acquiresleep l' has d h =>
      left
      by_cases hl : l = l'
      · simp [hl]
      · simpa [hl] using hr
    | releasesleep l' has d =>
      by_cases hl : l = l'
      · exact Or.inr (by simp [SleepPc.owes, hl])
      · exact Or.inl (by simpa [hl] using hr)
  device h := h.elim

def AllFree (d : ℕ → SleepLock) : Prop := ∀ l, d l = ⟨false, none⟩

/-- A call of `wakeup` does not return before every process that called `sleep` on the channel, with
a lock that the caller has acquired since, has been made runnable in that call. Sleep locks, built on
this, exclude, and no process sleeps on a free one whose spin lock is free. -/
theorem no_lost_wakeup :
    (∀ {N : ℕ} {σ K : Type} (client : Client σ K) (init : σ → Prop) (s : Kernel N σ K),
      (machine N client init).Reachable s → ∀ c q chan j k, s.code c = .wakeup chan j k →
        nproc ≤ j → s.agent c = some q → ∀ p n, s.hist.owes q p = some n →
          s.hist.roused p n = true) ∧
    ∀ {N : ℕ} (s : Kernel N (ℕ → SleepLock) SleepPc), (machine N sleepLocks AllFree).Reachable s →
      (∀ l p q y z, Live s p → (s.thread p).GoesOn y → y.between l = true → Live s q →
        (s.thread q).GoesOn z → z.between l = true → p = q) ∧
      ∀ l, s.lock (.other l) = none → (s.data l).locked = false →
        ∀ p, ¬((s.proc p).state = .sleeping ∧ (s.proc p).chan = some (.other l)) := by
  refine ⟨?_, ?_⟩
  · intro N σ K client init s h c q chan j k hpc hj hq p n ho
    exact roused_of_wakeup h hpc hj hq ho
  · intro N s h
    refine ⟨?_, ?_⟩
    · intro l p q y z hp hy hyl hq hz hzl
      have hp := (sleepLocks_local.reachable h).rest p y hp hy l hyl
      have hq := (sleepLocks_local.reachable h).rest q z hq hz l hzl
      rw [hp] at hq
      cases hq
      rfl
    · rintro l hl hfree p ⟨hs, hch⟩
      have := (sleepLocks_monitor l).asleep sleepLocks_local h hl hs hch
      rw [hfree] at this
      cases this

attribute [local instance] neZero_two

/-- The first process is in `acquiresleep` on the lock 0, which is free. -/
def acquiring : Kernel 2 (ℕ → SleepLock) SleepPc :=
  (((boot 2 sleepLocks fun _ => ⟨false, none⟩).exec sleepLocks.start 0 5).call 0 initproc
    (.acquire 0 (.acquiresleep 0 ∅))).exec sleepLocks.start 0 1

/-- It has taken the lock and forked, and its child, on the other CPU, sleeps on the lock. -/
def contended : Kernel 2 (ℕ → SleepLock) SleepPc :=
  let s₁ : Kernel 2 (ℕ → SleepLock) SleepPc :=
    { acquiring.goto 0 (.client (.acquired 0 ∅)) with
      data := Function.update acquiring.data 0 ⟨true, some initproc⟩ }
  let s₂ := (s₁.call 0 initproc (.release 0 (.idle {0}))).exec sleepLocks.start 0 1
  let s₃ := (s₂.call 0 initproc (.fork fun _ => .idle {0})).exec sleepLocks.start 0 16
  let s₄ := ((s₃.exec sleepLocks.start 1 9).call 1 secondproc
    (.acquire 0 (.acquiresleep 0 ∅))).exec sleepLocks.start 1 1
  (s₄.call 1 secondproc (.sleep 0 0 (.acquiresleep 0 ∅))).exec sleepLocks.start 1 7

def releasing : Kernel 2 (ℕ → SleepLock) SleepPc :=
  (contended.call 0 initproc (.acquire 0 (.releasesleep 0 {0}))).exec sleepLocks.start 0 1

def cleared : Kernel 2 (ℕ → SleepLock) SleepPc :=
  { releasing.goto 0 (.client (.unlocked 0 {0})) with
    data := Function.update releasing.data 0 ⟨false, none⟩ }

def passed : Kernel 2 (ℕ → SleepLock) SleepPc :=
  (cleared.call 0 initproc (.wakeup 0 (.released 0 {0}))).exec sleepLocks.start 0 253

theorem contended_reachable : (machine 2 sleepLocks AllFree).Reachable contended := by
  have h₀ : (machine 2 sleepLocks AllFree).Reachable (boot 2 sleepLocks fun _ => ⟨false, none⟩) :=
    .init (boot_initial fun _ => rfl)
  have h₁ : (machine 2 sleepLocks AllFree).Reachable acquiring :=
    Reachable.exec (Reachable.call (Reachable.exec h₀ 0 5) 0 initproc (.idle ∅)
      (.acquire 0 (.acquiresleep 0 ∅)) (by decide +kernel) (.acquiresleep ..)) 0 1
  have h₂ := Reachable.move h₁ 0 initproc (.acquiresleep 0 ∅) (.acquired 0 ∅) _ (by decide +kernel)
    (.acquiresleep _ _ _ (by decide +kernel))
  have h₃ := Reachable.exec (Reachable.call h₂ 0 initproc (.acquired 0 ∅) (.release 0 (.idle {0}))
    (by decide +kernel) (.acquired ..)) 0 1
  have h₄ := Reachable.exec (Reachable.call h₃ 0 initproc (.idle {0}) (.fork fun _ => .idle {0})
    (by decide +kernel) (.fork ..)) 0 16
  have h₅ := Reachable.exec (Reachable.call (Reachable.exec h₄ 1 9) 1 secondproc (.idle ∅)
    (.acquire 0 (.acquiresleep 0 ∅)) (by decide +kernel) (.acquiresleep ..)) 1 1
  exact Reachable.exec (Reachable.call h₅ 1 secondproc (.acquiresleep 0 ∅)
    (.sleep 0 0 (.acquiresleep 0 ∅)) (by decide +kernel) (.sleep _ _ _ (by decide +kernel))) 1 7

theorem passed_reachable : (machine 2 sleepLocks AllFree).Reachable passed := by
  have h₁ : (machine 2 sleepLocks AllFree).Reachable releasing :=
    Reachable.exec (Reachable.call contended_reachable 0 initproc (.idle {0})
      (.acquire 0 (.releasesleep 0 {0})) (by decide +kernel) (.releasesleep _ _ _ (by decide))) 0 1
  have h₂ : (machine 2 sleepLocks AllFree).Reachable cleared :=
    Reachable.move h₁ 0 initproc (.releasesleep 0 {0}) (.unlocked 0 {0}) _ (by decide +kernel)
      (.releasesleep ..)
  have h₃ := Reachable.call h₂ 0 initproc (.unlocked 0 {0}) (.wakeup 0 (.released 0 {0}))
    (by decide +kernel) (.unlocked ..)
  exact Reachable.exec h₃ 0 253

theorem no_lost_wakeup_releasesleep : (contended.proc secondproc).state = .sleeping ∧
    passed.hist.owes initproc secondproc = some 1 ∧ passed.hist.roused secondproc 1 = true := by
  have ho : passed.hist.owes initproc secondproc = some 1 := by decide +kernel
  have hag : passed.agent 0 = some initproc := by decide +kernel
  have hpass : (match passed.code 0 with
      | .wakeup _ j _ => decide (nproc ≤ j)
      | _ => false) = true := by decide +kernel
  refine ⟨by decide +kernel, ho, ?_⟩
  cases hk : passed.code 0 with
  | wakeup chan j k =>
    rw [hk] at hpass
    exact no_lost_wakeup.1 sleepLocks AllFree passed passed_reachable 0 initproc chan j k hk
      (of_decide_eq_true hpass) hag secondproc 1 ho
  | _ =>
    rw [hk] at hpass
    cases hpass

end Xv6.Sched
