import Mathlib.Tactic

/-! C strings and the functions of `kernel/string.c` on them. -/
namespace Xv6

/-- A C string: the bytes before the NUL. -/
abbrev Str := List UInt8

def lit (s : String) : Str := s.toList.map fun c => c.toNat.toUInt8

def strncmp : Str → Str → ℕ → ℤ
  | _, _, 0 => 0
  | p, q, n + 1 =>
    if p.headD 0 ≠ 0 ∧ p.headD 0 = q.headD 0 then strncmp p.tail q.tail n
    else (p.headD 0).toNat - (q.headD 0).toNat

def strncpy : Str → ℕ → List UInt8
  | _, 0 => []
  | t, n + 1 => if t.headD 0 = 0 then List.replicate (n + 1) 0 else t.headD 0 :: strncpy t.tail n

/-- What the functions with a bound see of a string. -/
def clip (s : Str) (n : ℕ) : Str := (s.take n).takeWhile (· ≠ 0)

theorem strncmp_head {p q : Str} {n : ℕ} (h : strncmp p q (n + 1) = 0) : p.headD 0 = q.headD 0 := by
  unfold strncmp at h
  split_ifs at h with hc
  · exact hc.2
  · apply UInt8.toNat_inj.mp
    omega

theorem strncmp_tail {p q : Str} {n : ℕ} (h : strncmp p q (n + 1) = 0) (hp : p.headD 0 ≠ 0) :
    strncmp p.tail q.tail n = 0 := by
  have hq := strncmp_head h
  unfold strncmp at h
  rwa [if_pos ⟨hp, hq⟩] at h

theorem clip_succ_of_ne {s : Str} (h : s.headD 0 ≠ 0) (n : ℕ) :
    clip s (n + 1) = s.headD 0 :: clip s.tail n := by
  cases s with
  | nil => exact absurd rfl h
  | cons c s =>
    have hc : c ≠ 0 := h
    simp [clip, hc]

theorem clip_of_head_eq_zero {s : Str} (h : s.headD 0 = 0) (n : ℕ) : clip s n = [] := by
  cases s with
  | nil => simp [clip]
  | cons c s =>
    have hc : c = 0 := h
    cases n <;> simp [clip, hc]

theorem clip_ne_nil {s : Str} (h : s.headD 0 ≠ 0) (n : ℕ) : clip s (n + 1) ≠ [] := by
  rw [clip_succ_of_ne h]
  exact List.cons_ne_nil _ _

theorem strncmp_eq_zero_iff (p q : Str) (n : ℕ) : strncmp p q n = 0 ↔ clip p n = clip q n := by
  induction n generalizing p q with
  | zero => simp [strncmp, clip]
  | succ n ih =>
    by_cases hp : p.headD 0 = 0
    · rw [clip_of_head_eq_zero hp]
      constructor
      · intro h
        rw [clip_of_head_eq_zero ((strncmp_head h).symm.trans hp)]
      · intro h
        by_cases hq : q.headD 0 = 0
        · rw [strncmp, if_neg fun hc => hc.1 hp, hp, hq, sub_self]
        · exact absurd h.symm (clip_ne_nil hq n)
    · by_cases hq : q.headD 0 = 0
      · rw [clip_of_head_eq_zero hq]
        constructor
        · intro h
          exact absurd ((strncmp_head h).trans hq) hp
        · intro h
          exact absurd h (clip_ne_nil hp n)
      · rw [clip_succ_of_ne hp, clip_succ_of_ne hq, List.cons.injEq, ← ih, strncmp]
        constructor
        · intro h
          split_ifs at h with hc
          · exact ⟨hc.2, h⟩
          · have : p.headD 0 = q.headD 0 := UInt8.toNat_inj.mp (by omega)
            exact absurd ⟨hp, this⟩ hc
        · rintro ⟨he, h⟩
          rwa [if_pos ⟨hp, he⟩]

@[simp] theorem length_strncpy (t : Str) (n : ℕ) : (strncpy t n).length = n := by
  induction n generalizing t with
  | zero => rfl
  | succ n ih =>
    rw [strncpy]
    split_ifs
    · simp
    · simp [ih]

theorem clip_strncpy (t : Str) (n : ℕ) : clip (strncpy t n) n = clip t n := by
  induction n generalizing t with
  | zero => simp [clip]
  | succ n ih =>
    rw [strncpy]
    split_ifs with h
    · rw [clip_of_head_eq_zero h, clip_of_head_eq_zero (by rw [List.replicate_succ, List.headD_cons])]
    · rw [clip_succ_of_ne h, clip_succ_of_ne (by simpa using h)]
      simp [ih]

end Xv6
