import Xv6.Virtio.Machine

/-! Who holds `vdisk_lock`, and which call uses which buffer. -/
namespace Xv6.Virtio

variable {T B D : Type} [DecidableEq T] {s s' : State T B D} {t : T} {k k' : Pc B}

/-- The lock is held where the code says so, and two calls are not about the same buffer. -/
structure Locks (s : State T B D) : Prop where
  lock : ∀ t, s.lock = some t ↔ (s.pc t).holds = true
  buf : ∀ t u b, (s.pc t).buf = some b → (s.pc u).buf = some b → t = u

namespace Locks

theorem buf_update (h : ∀ t u b, (s.pc t).buf = some b → (s.pc u).buf = some b → t = u)
    (hk : ∀ b, k.buf = some b → (s.pc t).buf = some b ∨ ∀ u, (s.pc u).buf ≠ some b) :
    ∀ u v b, (Function.update s.pc t k u).buf = some b → (Function.update s.pc t k v).buf = some b →
      u = v := by
  have hone : ∀ u b, u ≠ t → k.buf = some b → (s.pc u).buf = some b → False := by
    intro u b hu hb hu'
    rcases hk b hb with hb | hb
    · exact hu (h u t b hu' hb)
    · exact hb u hu'
  intro u v b
  by_cases hu : u = t
  · by_cases hv : v = t
    · exact fun _ _ => hu.trans hv.symm
    · subst hu
      rw [Function.update_self, Function.update_of_ne hv]
      exact fun hb hb' => (hone v b hv hb hb').elim
  · by_cases hv : v = t
    · subst hv
      rw [Function.update_self, Function.update_of_ne hu]
      exact fun hb hb' => (hone u b hu hb' hb).elim
    · rw [Function.update_of_ne hu, Function.update_of_ne hv]
      exact h u v b

theorem move (h : Locks s) (hpc : s.pc t = k') (hp : s'.pc = Function.update s.pc t k)
    (hl : s'.lock = s.lock) (hh : k.holds = k'.holds)
    (hk : ∀ b, k.buf = some b → k'.buf = some b ∨ ∀ u, (s.pc u).buf ≠ some b) : Locks s' := by
  refine ⟨fun u => ?_, ?_⟩
  · rw [hl, hp, h.lock]
    by_cases hu : u = t
    · rw [hu, Function.update_self, hpc, hh]
    · rw [Function.update_of_ne hu]
  · rw [hp]
    exact buf_update h.buf fun b hb => by
      rw [hpc]
      exact hk b hb

theorem acquire (h : Locks s) (hpc : s.pc t = k') (hp : s'.pc = Function.update s.pc t k)
    (hs : s.lock = none) (hl : s'.lock = some t) (hh : k.holds = true)
    (hk : ∀ b, k.buf = some b → k'.buf = some b) : Locks s' := by
  refine ⟨fun u => ?_, ?_⟩
  · rw [hl, hp]
    by_cases hu : u = t
    · simp [hu, hh]
    · have hn : (s.pc u).holds ≠ true := by
        rw [ne_eq, ← h.lock, hs]
        simp
      simp [hu, hn, Ne.symm hu]
  · rw [hp]
    exact buf_update h.buf fun b hb => Or.inl (by rw [hpc]; exact hk b hb)

theorem release (h : Locks s) (hpc : s.pc t = k') (hp : s'.pc = Function.update s.pc t k)
    (hl : s'.lock = none) (hh' : k'.holds = true) (hh : k.holds = false)
    (hk : ∀ b, k.buf = some b → k'.buf = some b) : Locks s' := by
  have hs : s.lock = some t := by rw [h.lock, hpc, hh']
  refine ⟨fun u => ?_, ?_⟩
  · rw [hl, hp]
    by_cases hu : u = t
    · simp [hu, hh]
    · have hn : (s.pc u).holds ≠ true := by
        rw [ne_eq, ← h.lock, hs]
        exact fun he => hu (Option.some.inj he).symm
      simp [hu, hn]
  · rw [hp]
    exact buf_update h.buf fun b hb => Or.inl (by rw [hpc]; exact hk b hb)

/-- A step keeps the lock with the call whose code holds it. -/
theorem step [DecidableEq B] (h : Locks s) (hst : Step s s') : Locks s' := by
  cases hst with
  | call t b write hpc hb =>
    refine h.move hpc rfl rfl rfl fun b' hb' => Or.inr ?_
    obtain rfl : b = b' := Option.some.inj hb'
    exact hb
  | lockAlloc t b write hpc hl | lockWait t b write idx n hpc hl | lockIntr t hpc hl =>
    exact h.acquire hpc rfl hl rfl rfl fun _ hb => hb
  | allocSleep t b write d hpc ha => exact h.release hpc rfl rfl rfl rfl fun _ hb => hb
  | wait t b write idx n hpc hd => exact h.release hpc rfl rfl rfl rfl fun _ hb => hb
  | exit t b n hpc => exact h.release hpc rfl rfl rfl rfl nofun
  | intrExit t hpc hu => exact h.release hpc rfl rfl rfl rfl nofun
  | freeChain t b write idx n i d hpc hf =>
    refine h.move hpc rfl rfl ?_ ?_
    · split_ifs <;> rfl
    · split_ifs
      · exact fun _ hb => Or.inl hb
      · exact fun _ hb => Or.inl hb
  | allocPanic | freePanic | intrStatus | intrNull | callIntr =>
    exact h.move ‹_› rfl rfl (by rfl) nofun
  | intr t b hpc hu hs hb => exact ⟨h.lock, h.buf⟩
  | take hu => exact ⟨h.lock, h.buf⟩
  | perform i j b l hm h0 h1 h2 =>
    exact ⟨by simpa using h.lock, by simpa using h.buf⟩
  | complete i hm => exact ⟨h.lock, h.buf⟩
  | other b blockno data hb => exact ⟨h.lock, h.buf⟩
  | _ => exact h.move ‹_› rfl rfl (by rfl) (by exact fun _ hb => Or.inl hb)

end Locks

end Xv6.Virtio
