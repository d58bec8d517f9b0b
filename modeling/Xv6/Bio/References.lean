import Xv6.Bio.Machine

/-! Reference counts: every buffer is referenced by the processes that use it, and once more if it
is pinned. -/
namespace Xv6.Bio

variable {N : ℕ}

/-- References of a process to a buffer that it has not locked. -/
def Pc.waits : Pc → Fin nbuf → ℕ
  | .locking i _ _, j => if i = j then 1 else 0
  | .releasing i _, j => if i = j then 1 else 0
  | _, _ => 0

@[simp] theorem Pc.waits_idle (j : Fin nbuf) : Pc.idle.waits j = 0 := rfl

@[simp] theorem Pc.waits_run (rest : Code Unit) (j : Fin nbuf) : (Pc.run rest).waits j = 0 := rfl

@[simp] theorem Pc.waits_locking (i : Fin nbuf) (b : ℕ) (k : Block → Code Unit) (j : Fin nbuf) :
    (Pc.locking i b k).waits j = if i = j then 1 else 0 := rfl

@[simp] theorem Pc.waits_filling (i : Fin nbuf) (b : ℕ) (k : Block → Code Unit) (j : Fin nbuf) :
    (Pc.filling i b k).waits j = 0 := rfl

@[simp] theorem Pc.waits_releasing (i : Fin nbuf) (rest : Code Unit) (j : Fin nbuf) :
    (Pc.releasing i rest).waits j = if i = j then 1 else 0 := rfl

/-- The number of processes that hold a buffer: the one that has locked it, and those about to lock
it or done with it. -/
def holders (owner : Fin nbuf → Option (Fin N)) (pc : Fin N → Pc) (i : Fin nbuf) : ℕ :=
  (if owner i = none then 0 else 1) + ∑ p, (pc p).waits i

theorem sum_waits_update (pc : Fin N → Pc) (p : Fin N) (c : Pc) (i : Fin nbuf) :
    ∑ q, (Function.update pc p c q).waits i + (pc p).waits i = ∑ q, (pc q).waits i + c.waits i := by
  have hnew := Finset.add_sum_erase Finset.univ (fun q => (Function.update pc p c q).waits i)
    (Finset.mem_univ p)
  have hold := Finset.add_sum_erase Finset.univ (fun q => (pc q).waits i) (Finset.mem_univ p)
  have he : ∑ q ∈ Finset.univ.erase p, (Function.update pc p c q).waits i =
      ∑ q ∈ Finset.univ.erase p, (pc q).waits i := by
    apply Finset.sum_congr rfl
    intro q hq
    rw [Function.update_of_ne (Finset.ne_of_mem_erase hq)]
  simp only [Function.update_self] at hnew
  omega

theorem holders_update_pc (owner : Fin nbuf → Option (Fin N)) (pc : Fin N → Pc) (p : Fin N) (c : Pc)
    (i : Fin nbuf) :
    holders owner (Function.update pc p c) i + (pc p).waits i =
      holders owner pc i + c.waits i := by
  have := sum_waits_update pc p c i
  unfold holders
  omega

theorem waits_le_holders (owner : Fin nbuf → Option (Fin N)) (pc : Fin N → Pc) (p : Fin N)
    (i : Fin nbuf) : (pc p).waits i ≤ holders owner pc i := by
  have := Finset.single_le_sum (f := fun q => (pc q).waits i) (fun _ _ => Nat.zero_le _)
    (Finset.mem_univ p)
  unfold holders
  omega

/-- The cache with the locks and the processes, given the pinned blocks. -/
structure Wf (c : Bcache) (owner : Fin nbuf → Option (Fin N)) (pc : Fin N → Pc)
    (dirty : Fin nbuf → Bool) (pins : ℕ → Bool) : Prop where
  lru : ∀ i, i ∈ c.lru
  unique : ∀ i j b, c.Names i rootDev b → c.Names j rootDev b → i = j
  refcnt : ∀ i, (c.buf i).refcnt = holders owner pc i +
    if (c.buf i).dev = rootDev ∧ pins (c.buf i).blockno = true then 1 else 0
  pinned : ∀ b, pins b = true → ∃ i, c.Names i rootDev b
  locking : ∀ p i b k, pc p = .locking i b k → c.Names i rootDev b
  filling : ∀ p i b k, pc p = .filling i b k →
    owner i = some p ∧ c.Names i rootDev b ∧ dirty i = false
  dev : ∀ i p, owner i = some p → (c.buf i).dev = rootDev
  valid : ∀ i p, owner i = some p → (c.buf i).valid = true ∨ ∃ b k, pc p = .filling i b k
  dirty : ∀ i, dirty i = true → owner i ≠ none

namespace Wf

variable {c : Bcache} {owner : Fin nbuf → Option (Fin N)} {pc : Fin N → Pc}
  {dirty : Fin nbuf → Bool} {pins : ℕ → Bool} {p : Fin N} {i : Fin nbuf}

theorem goto (h : Wf c owner pc dirty pins) {d : Pc} (hw : (pc p).waits = d.waits)
    (hp : ∀ i b k, pc p ≠ .filling i b k) (hl : ∀ i b k, d ≠ .locking i b k)
    (hf : ∀ i b k, d ≠ .filling i b k) : Wf c owner (Function.update pc p d) dirty pins := by
  constructor
  · exact h.lru
  · exact h.unique
  · intro i
    have := holders_update_pc owner pc p d i
    rw [h.refcnt i]
    rw [hw] at this
    omega
  · exact h.pinned
  · intro q i b k hq
    rw [Function.update_apply] at hq
    split_ifs at hq with hqp
    · exact absurd hq (hl i b k)
    · exact h.locking q i b k hq
  · intro q i b k hq
    rw [Function.update_apply] at hq
    split_ifs at hq with hqp
    · exact absurd hq (hf i b k)
    · exact h.filling q i b k hq
  · exact h.dev
  · intro i q hq
    rcases h.valid i q hq with hv | ⟨b, k, hk⟩
    · exact Or.inl hv
    · have hne : q ≠ p := by
        rintro rfl
        exact hp i b k hk
      exact Or.inr ⟨b, k, by rwa [Function.update_of_ne hne]⟩
  · exact h.dirty

theorem pos_of_waits (h : Wf c owner pc dirty pins) (hp : 0 < (pc p).waits i) :
    0 < (c.buf i).refcnt := by
  have := waits_le_holders owner pc p i
  rw [h.refcnt i]
  omega

theorem pos_of_owner (h : Wf c owner pc dirty pins) (hp : owner i ≠ none) :
    0 < (c.buf i).refcnt := by
  rw [h.refcnt i]
  unfold holders
  simp only [hp, if_false]
  omega

theorem free (h : Wf c owner pc dirty pins) (h0 : (c.buf i).refcnt = 0) :
    owner i = none ∧ (∀ q, (pc q).waits i = 0) ∧
      ((c.buf i).dev = rootDev → pins (c.buf i).blockno = false) := by
  refine ⟨?_, fun q => ?_, fun hd => ?_⟩
  · by_contra ho
    have := h.pos_of_owner ho
    omega
  · by_contra hq
    have := h.pos_of_waits (p := q) (i := i) (by omega)
    omega
  · have := h.refcnt i
    rw [← Bool.not_eq_true]
    intro hpin
    simp only [hd, hpin, and_self, if_true] at this
    omega

theorem set_refcnt (h : Wf c owner pc dirty pins) {c' : Bcache} {pc' : Fin N → Pc}
    {pins' : ℕ → Bool} (hlru : ∀ i, i ∈ c.lru → i ∈ c'.lru)
    (hbuf : c.Recounts c')
    (href : ∀ i, (c'.buf i).refcnt = holders owner pc' i +
      if (c.buf i).dev = rootDev ∧ pins' (c.buf i).blockno = true then 1 else 0)
    (hpin : ∀ b, pins' b = true → pins b = true ∨ ∃ i, c.Names i rootDev b)
    (hl : ∀ p i b k, pc' p = .locking i b k → c.Names i rootDev b)
    (hf : ∀ p i b k, pc' p = .filling i b k ↔ pc p = .filling i b k) :
    Wf c' owner pc' dirty pins' := by
  have hnames : ∀ i b, c'.Names i rootDev b ↔ c.Names i rootDev b := fun i b => hbuf.names
  constructor
  · exact fun i => hlru i (h.lru i)
  · intro i j b hi hj
    rw [hnames] at hi hj
    exact h.unique i j b hi hj
  · intro i
    obtain ⟨r, hr⟩ := hbuf i
    rw [href i]
    simp only [hr]
  · intro b hb
    simp only [hnames]
    rcases hpin b hb with hb | hb
    · exact h.pinned b hb
    · exact hb
  · intro p i b k hp
    rw [hnames]
    exact hl p i b k hp
  · intro p i b k hp
    rw [hnames]
    exact h.filling p i b k ((hf p i b k).mp hp)
  · intro i p hp
    obtain ⟨r, hr⟩ := hbuf i
    rw [hr]
    exact h.dev i p hp
  · intro i p hp
    obtain ⟨r, hr⟩ := hbuf i
    rw [hr]
    simp only [hf]
    exact h.valid i p hp
  · exact h.dirty

theorem bget_hit (h : Wf c owner pc dirty pins) {b : ℕ} {k : Block → Code Unit}
    (hp : (pc p).waits = fun _ => 0) (hpf : ∀ i b k, pc p ≠ .filling i b k)
    (hn : c.Names i rootDev b) :
    Wf (c.set i { c.buf i with refcnt := (c.buf i).refcnt + 1 }) owner
      (Function.update pc p (.locking i b k)) dirty pins := by
  apply h.set_refcnt
  · exact fun _ => id
  · exact Bcache.recounts_set c i _
  · intro j
    have hh := holders_update_pc owner pc p (.locking i b k) j
    have hr := h.refcnt j
    simp only [hp, Pc.waits_locking] at hh
    by_cases hj : j = i
    · subst hj
      simp only [Bcache.set_buf, Function.update_self]
      simp only [if_true] at hh
      omega
    · simp only [Bcache.set_buf, Function.update_of_ne hj]
      simp only [Ne.symm hj, if_false] at hh
      omega
  · exact fun b hb => Or.inl hb
  · intro q j b' k' hq
    rw [Function.update_apply] at hq
    split_ifs at hq with hqp
    · cases hq
      exact hn
    · exact h.locking q j b' k' hq
  · intro q j b' k'
    rw [Function.update_apply]
    split_ifs with hqp
    · subst hqp
      simp [hpf]
    · rfl

theorem bget_miss (h : Wf c owner pc dirty pins) {b : ℕ} {k : Block → Code Unit}
    (hp : (pc p).waits = fun _ => 0) (hpf : ∀ i b k, pc p ≠ .filling i b k)
    (hn : ∀ j ∈ c.lru, ¬c.Names j rootDev b) (h0 : (c.buf i).refcnt = 0) :
    Wf (c.set i { c.buf i with dev := rootDev, blockno := b, valid := false, refcnt := 1 }) owner
      (Function.update pc p (.locking i b k)) dirty pins := by
  obtain ⟨ho, hw, hpin⟩ := h.free h0
  have hnb : pins b = false := by
    rw [← Bool.not_eq_true]
    intro hb
    obtain ⟨j, hj⟩ := h.pinned b hb
    exact hn j (h.lru j) hj
  have hnames : ∀ j, j ≠ i → ∀ b', (c.set i
      { c.buf i with dev := rootDev, blockno := b, valid := false, refcnt := 1 }).Names j rootDev b' ↔
      c.Names j rootDev b' := by
    intro j hj b'
    simp [Bcache.Names, hj]
  have hnamei : ∀ b', (c.set i
      { c.buf i with dev := rootDev, blockno := b, valid := false, refcnt := 1 }).Names i rootDev b' ↔
      b = b' := by
    intro b'
    simp [Bcache.Names]
  constructor
  · exact h.lru
  · intro j₁ j₂ b' h₁ h₂
    by_cases e₁ : j₁ = i
    · by_cases e₂ : j₂ = i
      · rw [e₁, e₂]
      · rw [e₁, hnamei] at h₁
        rw [hnames j₂ e₂] at h₂
        exact absurd (h₁ ▸ h₂) (hn j₂ (h.lru j₂))
    · rw [hnames j₁ e₁] at h₁
      by_cases e₂ : j₂ = i
      · rw [e₂, hnamei] at h₂
        exact absurd (h₂ ▸ h₁) (hn j₁ (h.lru j₁))
      · rw [hnames j₂ e₂] at h₂
        exact h.unique j₁ j₂ b' h₁ h₂
  · intro j
    have hh := holders_update_pc owner pc p (.locking i b k) j
    have hr := h.refcnt j
    simp only [hp, Pc.waits_locking] at hh
    by_cases hj : j = i
    · subst hj
      have hz : holders owner pc j = 0 := by omega
      simp only [Bcache.set_buf, Function.update_self, hnb]
      simp only [if_true] at hh
      simp only [Bool.false_eq_true, and_false, if_false]
      omega
    · simp only [Bcache.set_buf, Function.update_of_ne hj]
      simp only [Ne.symm hj, if_false] at hh
      omega
  · intro b' hb'
    obtain ⟨j, hj⟩ := h.pinned b' hb'
    have hji : j ≠ i := by
      rintro rfl
      have := hpin hj.1
      rw [hj.2, hb'] at this
      exact absurd this (by decide)
    exact ⟨j, (hnames j hji b').mpr hj⟩
  · intro q j b' k' hq
    rw [Function.update_apply] at hq
    split_ifs at hq with hqp
    · cases hq
      exact (hnamei b).mpr rfl
    · have hji : j ≠ i := by
        rintro rfl
        have := hw q
        simp [hq] at this
      exact (hnames j hji b').mpr (h.locking q j b' k' hq)
  · intro q j b' k' hq
    rw [Function.update_apply] at hq
    split_ifs at hq with hqp
    obtain ⟨hoj, hnj, hd⟩ := h.filling q j b' k' hq
    have hji : j ≠ i := by
      rintro rfl
      rw [ho] at hoj
      exact absurd hoj (by simp)
    exact ⟨hoj, (hnames j hji b').mpr hnj, hd⟩
  · intro j q hq
    have hji : j ≠ i := by
      rintro rfl
      rw [ho] at hq
      exact absurd hq (by simp)
    simpa [hji] using h.dev j q hq
  · intro j q hq
    have hji : j ≠ i := by
      rintro rfl
      rw [ho] at hq
      exact absurd hq (by simp)
    rcases h.valid j q hq with hv | ⟨b', k', hk⟩
    · exact Or.inl (by simpa [hji] using hv)
    · have hqp : q ≠ p := by
        rintro rfl
        exact hpf j b' k' hk
      exact Or.inr ⟨b', k', by rwa [Function.update_of_ne hqp]⟩
  · exact h.dirty

theorem acquiresleep (h : Wf c owner pc dirty pins) {b : ℕ} {k : Block → Code Unit}
    (hp : pc p = .locking i b k) (ho : owner i = none) :
    Wf c (Function.update owner i (some p)) (Function.update pc p (.filling i b k)) dirty pins := by
  have hn := h.locking p i b k hp
  constructor
  · exact h.lru
  · exact h.unique
  · intro j
    have hs := sum_waits_update pc p (.filling i b k) j
    have hr := h.refcnt j
    simp only [hp, Pc.waits_locking, Pc.waits_filling] at hs
    unfold holders at hr ⊢
    by_cases hj : j = i
    · subst hj
      simp only [Function.update_self, ho, if_true, reduceCtorEq, if_false] at hr hs ⊢
      omega
    · simp only [Function.update_of_ne hj]
      simp only [Ne.symm hj, if_false] at hs
      omega
  · exact h.pinned
  · intro q j b' k' hq
    rw [Function.update_apply] at hq
    split_ifs at hq with hqp
    exact h.locking q j b' k' hq
  · intro q j b' k' hq
    rw [Function.update_apply] at hq
    split_ifs at hq with hqp
    · cases hq
      refine ⟨by rw [hqp, Function.update_self], hn, ?_⟩
      rw [← Bool.not_eq_true]
      exact fun hd => h.dirty i hd ho
    · obtain ⟨hoj, hnj, hd⟩ := h.filling q j b' k' hq
      have hji : j ≠ i := by
        rintro rfl
        rw [ho] at hoj
        exact absurd hoj (by simp)
      exact ⟨by rwa [Function.update_of_ne hji], hnj, hd⟩
  · intro j q hq
    rw [Function.update_apply] at hq
    split_ifs at hq with hji
    · rw [hji]
      exact hn.1
    · exact h.dev j q hq
  · intro j q hq
    rw [Function.update_apply] at hq
    split_ifs at hq with hji
    · cases hq
      exact Or.inr ⟨b, k, by rw [hji, Function.update_self]⟩
    · rcases h.valid j q hq with hv | ⟨b', k', hk⟩
      · exact Or.inl hv
      · have hqp : q ≠ p := by
          rintro rfl
          rw [hp] at hk
          cases hk
        exact Or.inr ⟨b', k', by rwa [Function.update_of_ne hqp]⟩
  · intro j hj
    rw [Function.update_apply]
    split_ifs
    · simp
    · exact h.dirty j hj

theorem set_data (h : Wf c owner pc dirty pins) {v : Bool} {data : Block}
    (hv : (c.buf i).valid = true → v = true) :
    Wf (c.set i { c.buf i with valid := v, data := data }) owner pc dirty pins := by
  have hfields : ∀ j, ((c.set i { c.buf i with valid := v, data := data }).buf j).dev =
        (c.buf j).dev ∧
      ((c.set i { c.buf i with valid := v, data := data }).buf j).blockno = (c.buf j).blockno ∧
      ((c.set i { c.buf i with valid := v, data := data }).buf j).refcnt = (c.buf j).refcnt ∧
      ((c.buf j).valid = true →
        ((c.set i { c.buf i with valid := v, data := data }).buf j).valid = true) := by
    intro j
    by_cases hj : j = i
    · subst hj
      simpa using hv
    · simp [hj]
  have hnames : ∀ j b, (c.set i { c.buf i with valid := v, data := data }).Names j rootDev b ↔
      c.Names j rootDev b := by
    intro j b
    unfold Bcache.Names
    rw [(hfields j).1, (hfields j).2.1]
  constructor
  · exact h.lru
  · intro j₁ j₂ b h₁ h₂
    rw [hnames] at h₁ h₂
    exact h.unique j₁ j₂ b h₁ h₂
  · intro j
    obtain ⟨hd, hb, hr, -⟩ := hfields j
    rw [hd, hb, hr]
    exact h.refcnt j
  · intro b hb
    simp only [hnames]
    exact h.pinned b hb
  · intro q j b k hq
    rw [hnames]
    exact h.locking q j b k hq
  · intro q j b k hq
    rw [hnames]
    exact h.filling q j b k hq
  · intro j q hq
    rw [(hfields j).1]
    exact h.dev j q hq
  · intro j q hq
    exact (h.valid j q hq).imp_left (hfields j).2.2.2
  · exact h.dirty

theorem bread (h : Wf c owner pc dirty pins) {b : ℕ} {k : Block → Code Unit} {rest : Code Unit}
    (hp : pc p = .filling i b k) (hv : (c.buf i).valid = true) :
    Wf c owner (Function.update pc p (.run rest)) dirty pins := by
  constructor
  · exact h.lru
  · exact h.unique
  · intro j
    have := holders_update_pc owner pc p (.run rest) j
    rw [h.refcnt j]
    simp only [hp, Pc.waits_filling, Pc.waits_run] at this
    omega
  · exact h.pinned
  · intro q j b' k' hq
    rw [Function.update_apply] at hq
    split_ifs at hq with hqp
    exact h.locking q j b' k' hq
  · intro q j b' k' hq
    rw [Function.update_apply] at hq
    split_ifs at hq with hqp
    exact h.filling q j b' k' hq
  · exact h.dev
  · intro j q hq
    rcases h.valid j q hq with hv' | ⟨b', k', hk⟩
    · exact Or.inl hv'
    · by_cases hqp : q = p
      · rw [hqp, hp] at hk
        cases hk
        exact Or.inl hv
      · exact Or.inr ⟨b', k', by rwa [Function.update_of_ne hqp]⟩
  · exact h.dirty

theorem releasesleep (h : Wf c owner pc dirty pins) (rest : Code Unit)
    (hp : (pc p).waits = fun _ => 0) (hpf : ∀ i b k, pc p ≠ .filling i b k) (ho : owner i = some p) :
    Wf c (Function.update owner i none) (Function.update pc p (.releasing i rest))
      (Function.update dirty i false) pins := by
  constructor
  · exact h.lru
  · exact h.unique
  · intro j
    have hs := sum_waits_update pc p (.releasing i rest) j
    have hr := h.refcnt j
    simp only [hp, Pc.waits_releasing] at hs
    unfold holders at hr ⊢
    by_cases hj : j = i
    · subst hj
      simp only [Function.update_self, ho, if_true, reduceCtorEq, if_false] at hr hs ⊢
      omega
    · simp only [Function.update_of_ne hj]
      simp only [Ne.symm hj, if_false] at hs
      omega
  · exact h.pinned
  · intro q j b' k' hq
    rw [Function.update_apply] at hq
    split_ifs at hq with hqp
    exact h.locking q j b' k' hq
  · intro q j b' k' hq
    rw [Function.update_apply] at hq
    split_ifs at hq with hqp
    obtain ⟨hoj, hnj, hd⟩ := h.filling q j b' k' hq
    have hji : j ≠ i := by
      rintro rfl
      rw [ho] at hoj
      exact hqp (Option.some.inj hoj).symm
    exact ⟨by rwa [Function.update_of_ne hji], hnj, by rwa [Function.update_of_ne hji]⟩
  · intro j q hq
    rw [Function.update_apply] at hq
    split_ifs at hq with hji
    exact h.dev j q hq
  · intro j q hq
    rw [Function.update_apply] at hq
    split_ifs at hq with hji
    rcases h.valid j q hq with hv | ⟨b', k', hk⟩
    · exact Or.inl hv
    · have hqp : q ≠ p := by
        rintro rfl
        exact hpf j b' k' hk
      exact Or.inr ⟨b', k', by rwa [Function.update_of_ne hqp]⟩
  · intro j hj
    rw [Function.update_apply] at hj
    split_ifs at hj with hji
    rw [Function.update_of_ne hji]
    exact h.dirty j hj

theorem set_dirty (h : Wf c owner pc dirty pins) (hpf : ∀ i b k, pc p ≠ .filling i b k)
    (ho : owner i = some p) (d : Bool) : Wf c owner pc (Function.update dirty i d) pins := by
  refine ⟨h.lru, h.unique, h.refcnt, h.pinned, h.locking, ?_, h.dev, h.valid, ?_⟩
  · intro q j b k hq
    obtain ⟨hoj, hnj, hd⟩ := h.filling q j b k hq
    have hji : j ≠ i := by
      rintro rfl
      rw [ho] at hoj
      cases hoj
      exact hpf j b k hq
    exact ⟨hoj, hnj, by rwa [Function.update_of_ne hji]⟩
  · intro j hj
    by_cases hji : j = i
    · simp [hji, ho]
    · exact h.dirty j (by rwa [Function.update_of_ne hji] at hj)

theorem brelse (h : Wf c owner pc dirty pins) {rest : Code Unit} (hp : pc p = .releasing i rest) :
    Wf (c.brelse i) owner (Function.update pc p (.run rest)) dirty pins := by
  apply h.set_refcnt
  · intro j hj
    exact Bcache.mem_brelse_lru.mpr (Or.inr hj)
  · exact Bcache.recounts_brelse c i
  · intro j
    have hh := holders_update_pc owner pc p (.run rest) j
    have hr := h.refcnt j
    simp only [hp, Pc.waits_releasing, Pc.waits_run] at hh
    rw [Bcache.brelse_buf]
    by_cases hj : j = i
    · subst hj
      simp only [Function.update_self]
      simp only [if_true] at hh
      omega
    · simp only [Function.update_of_ne hj]
      simp only [Ne.symm hj, if_false] at hh
      omega
  · exact fun b hb => Or.inl hb
  · intro q j b k hq
    rw [Function.update_apply] at hq
    split_ifs at hq with hqp
    exact h.locking q j b k hq
  · intro q j b k
    rw [Function.update_apply]
    split_ifs with hqp
    · simp [hqp, hp]
    · rfl

theorem bpin (h : Wf c owner pc dirty pins) {b : ℕ} (hn : c.Names i rootDev b)
    (hb : pins b = false) : Wf (c.bpin i) owner pc dirty (Function.update pins b true) := by
  apply h.set_refcnt
  · exact fun _ => id
  · exact Bcache.recounts_set c i _
  · intro j
    have hr := h.refcnt j
    unfold Bcache.bpin
    by_cases hj : j = i
    · subst hj
      simp only [Bcache.set_buf, Function.update_self, hn.1, hn.2, hb] at hr ⊢
      simpa using hr
    · have hne : (c.buf j).dev = rootDev → (c.buf j).blockno ≠ b := fun hd hb' =>
        hj (h.unique j i b ⟨hd, hb'⟩ hn)
      simp only [Bcache.set_buf, Function.update_of_ne hj, Function.update_apply]
      rw [hr]
      by_cases hd : (c.buf j).dev = rootDev
      · simp [hne hd]
      · simp [hd]
  · intro b' hb'
    by_cases e : b' = b
    · exact Or.inr ⟨i, e ▸ hn⟩
    · exact Or.inl (by rwa [Function.update_of_ne e] at hb')
  · exact h.locking
  · exact fun _ _ _ _ => Iff.rfl

theorem bunpin (h : Wf c owner pc dirty pins) {b : ℕ} (hn : c.Names i rootDev b)
    (hb : pins b = true) : Wf (c.bunpin i) owner pc dirty (Function.update pins b false) := by
  apply h.set_refcnt
  · exact fun _ => id
  · exact Bcache.recounts_set c i _
  · intro j
    have hr := h.refcnt j
    unfold Bcache.bunpin
    by_cases hj : j = i
    · subst hj
      simp only [Bcache.set_buf, Function.update_self, hn.1, hn.2, hb, and_self, if_true,
        Bool.false_eq_true, and_false, if_false] at hr ⊢
      omega
    · have hne : (c.buf j).dev = rootDev → (c.buf j).blockno ≠ b := fun hd hb' =>
        hj (h.unique j i b ⟨hd, hb'⟩ hn)
      simp only [Bcache.set_buf, Function.update_of_ne hj, Function.update_apply]
      rw [hr]
      by_cases hd : (c.buf j).dev = rootDev
      · simp [hne hd]
      · simp [hd]
  · intro b' hb'
    rw [Function.update_apply] at hb'
    split_ifs at hb' with e
    exact Or.inl hb'
  · exact h.locking
  · exact fun _ _ _ _ => Iff.rfl

end Wf
end Xv6.Bio
