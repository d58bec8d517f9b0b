import Xv6.Proc.Ps

/-! The lists of process ids that `parsePIDs` accepts, and the search of `ps` in what it has stored. -/
namespace Xv6.Proc

def numbers (list : Str) : List ℤ := (fields list).map atoi

/-- `parsePIDs` returns 0, and has stayed within its array. -/
def Accepted (list : Str) : Prop :=
  (numbers list).length < nproc ∧ ∀ pids, (parsePIDs list pids).1 = true

/-- Nonempty fields of at most nine digits, fewer than `NPROC`. -/
def WellFormed (list : Str) : Prop :=
  (∀ f ∈ fields list, f ≠ [] ∧ f.length ≤ 9) ∧ (fields list).length < nproc

theorem fieldsFrom_eq (field s : Str) (h : field ++ s ≠ []) :
    fieldsFrom field s =
      (field ++ s.takeWhile (· ≠ 44)) :: fields (s.dropWhile (· ≠ 44)).tail := by
  induction s generalizing field with
  | nil =>
    rw [List.append_nil] at h
    simp [fieldsFrom, fields, h]
  | cons c s ih =>
    by_cases hc : c = 44
    · simp [fieldsFrom, fields, hc]
    · rw [fieldsFrom, if_neg hc, ih (field ++ [c]) (by simp)]
      simp [hc]

theorem scanField_eq (s field : Str) (h : field.length ≤ 9) :
    scanField s field =
      if (field ++ s.takeWhile (· ≠ 44)).length ≤ 9 then
        some (field ++ s.takeWhile (· ≠ 44), s.dropWhile (· ≠ 44)) else none := by
  induction s generalizing field with
  | nil => simp [scanField, h]
  | cons c s ih =>
    by_cases hc : c = 44
    · simp [scanField, hc, h]
    · rw [scanField, if_neg hc]
      split_ifs with h₁ h₂ h₂
      · simp [hc] at h₂
        omega
      · rfl
      · rw [ih _ (by simp; omega), if_pos (by simpa [hc] using h₂)]
        simp [hc]
      · rw [ih _ (by simp; omega), if_neg (by simpa [hc] using h₂)]

/-- `parsePIDs` stores the numbers and a -1 after them. -/
def stored (k : ℕ) : List ℤ → (ℕ → ℤ) → ℕ → ℤ
  | [], pids => Function.update pids k (-1)
  | n :: l, pids => stored (k + 1) l (Function.update pids k n)

theorem parsePIDsFrom_cons (fuel : ℕ) (c : UInt8) (s : Str) (k : ℕ) (pids : ℕ → ℤ) :
    parsePIDsFrom (fuel + 1) (c :: s) k pids =
      if (c :: s).takeWhile (· ≠ 44) ≠ [] ∧ ((c :: s).takeWhile (· ≠ 44)).length ≤ 9 then
        parsePIDsFrom fuel ((c :: s).dropWhile (· ≠ 44)).tail (k + 1)
          (Function.update pids k (atoi ((c :: s).takeWhile (· ≠ 44))))
      else (false, pids) := by
  have hscan := scanField_eq (c :: s) [] (by simp)
  rw [List.nil_append] at hscan
  simp only [parsePIDsFrom, hscan]
  generalize (c :: s).takeWhile (· ≠ 44) = field
  generalize (c :: s).dropWhile (· ≠ 44) = rest
  by_cases h9 : field.length ≤ 9
  · by_cases h0 : field = []
    · simp [h0]
    · simp [h9, h0]
  · simp [h9]

theorem parsePIDsFrom_spec (fuel : ℕ) (s : Str) (k : ℕ) (pids : ℕ → ℤ) (h : s.length ≤ fuel) :
    if ∀ f ∈ fields s, f ≠ [] ∧ f.length ≤ 9 then
      parsePIDsFrom fuel s k pids = (true, stored k (numbers s) pids)
    else (parsePIDsFrom fuel s k pids).1 = false := by
  induction fuel generalizing s k pids with
  | zero =>
    obtain rfl : s = [] := List.length_eq_zero_iff.mp (by omega)
    simp [fields, fieldsFrom, parsePIDsFrom, numbers, stored]
  | succ fuel ih =>
    cases s with
    | nil => simp [fields, fieldsFrom, parsePIDsFrom, numbers, stored]
    | cons c s =>
      have hf : fields (c :: s) = (c :: s).takeWhile (· ≠ 44) ::
          fields ((c :: s).dropWhile (· ≠ 44)).tail := fieldsFrom_eq [] (c :: s) (by simp)
      have hn : numbers (c :: s) = atoi ((c :: s).takeWhile (· ≠ 44)) ::
          numbers ((c :: s).dropWhile (· ≠ 44)).tail := by rw [numbers, hf, List.map_cons, numbers]
      have hlen : ((c :: s).dropWhile (· ≠ 44)).tail.length ≤ fuel := by
        have := (List.dropWhile_sublist (l := c :: s) (· ≠ 44)).length_le
        rw [List.length_tail]
        omega
      rw [hf, hn, parsePIDsFrom_cons]
      generalize (c :: s).takeWhile (· ≠ 44) = field at *
      generalize (c :: s).dropWhile (· ≠ 44) = rest at *
      have hrest := ih rest.tail (k + 1) (Function.update pids k (atoi field)) hlen
      simp only [List.forall_mem_cons]
      by_cases h9 : field.length ≤ 9
      · by_cases h0 : field = []
        · simp [h0]
        · simpa [h9, h0, stored] using hrest
      · simp [h9]

theorem stored_get (l : List ℤ) (k i : ℕ) (pids : ℕ → ℤ) (v : ℤ) (h : (l ++ [-1])[i]? = some v) :
    stored k l pids (k + i) = v := by
  have hlow : ∀ (l : List ℤ) (k j : ℕ) (pids : ℕ → ℤ), j < k → stored k l pids j = pids j := by
    intro l
    induction l with
    | nil => exact fun k j pids hj => Function.update_of_ne (by omega) _ _
    | cons n l ih =>
      intro k j pids hj
      rw [stored, ih (k + 1) j _ (by omega), Function.update_of_ne (by omega)]
  induction l generalizing k i pids with
  | nil =>
    cases i with
    | zero =>
      have hv : -1 = v := by simpa using h
      simp [stored, hv]
    | succ i => simp at h
  | cons n l ih =>
    cases i with
    | zero =>
      have hv : n = v := by simpa using h
      show stored (k + 1) l (Function.update pids k n) k = v
      rw [hlow l (k + 1) k _ (by omega), Function.update_self, hv]
    | succ i =>
      rw [stored, show k + (i + 1) = k + 1 + i by omega]
      exact ih (k + 1) i _ (by simpa using h)

theorem pidListed_eq (l : List ℤ) (m : ℕ → ℤ) (pid : ℤ) (fuel i : ℕ) (hm : -1 ∉ l)
    (hl : l.length < fuel) (hs : ∀ j v, (l ++ [-1])[j]? = some v → m (i + j) = v) :
    pidListed m pid fuel i = decide (pid ∈ l) := by
  induction l generalizing fuel i with
  | nil =>
    obtain ⟨fuel, rfl⟩ : ∃ n, fuel = n + 1 := ⟨fuel - 1, by simp at hl; omega⟩
    have h0 : m i = -1 := hs 0 (-1) rfl
    simp [pidListed, h0]
  | cons n l ih =>
    obtain ⟨fuel, rfl⟩ : ∃ n, fuel = n + 1 := ⟨fuel - 1, by simp at hl; omega⟩
    have h0 : m i = n := hs 0 n rfl
    obtain ⟨hn, hml⟩ : -1 ≠ n ∧ -1 ∉ l := by simpa using hm
    have hrest := ih fuel (i + 1) hml (by simp at hl; omega) fun j v hv => by
      rw [show i + 1 + j = i + (j + 1) by omega]
      exact hs (j + 1) v (by simpa using hv)
    rw [pidListed, h0, if_neg hn.symm, hrest]
    by_cases hp : pid = n
    · simp [hp]
    · simp [hp]

theorem atoi_nonneg (s : Str) : 0 ≤ atoi s := by
  have : ∀ (s : Str) (n : ℤ), 0 ≤ n → 0 ≤ atoiFrom n s := by
    intro s
    induction s with
    | nil => exact fun n hn => hn
    | cons c s ih =>
      intro n hn
      rw [atoiFrom]
      split_ifs with hc
      · have : 48 ≤ c.toNat := UInt8.le_iff_toNat_le.mp hc.1
        exact ih _ (by omega)
      · exact hn
  exact this s 0 le_rfl

theorem parsePIDs_of_wellFormed {list : Str} (h : ∀ f ∈ fields list, f ≠ [] ∧ f.length ≤ 9)
    (pids : ℕ → ℤ) : parsePIDs list pids = (true, stored 0 (numbers list) pids) := by
  have := parsePIDsFrom_spec list.length list 0 pids le_rfl
  rwa [if_pos h] at this

theorem accepted_iff (list : Str) : Accepted list ↔ WellFormed list := by
  unfold Accepted WellFormed
  rw [numbers, List.length_map, and_comm]
  apply and_congr_left
  intro _
  constructor
  · intro h
    by_contra hn
    have := parsePIDsFrom_spec list.length list 0 (fun _ => 0) le_rfl
    rw [if_neg hn] at this
    have htrue := h fun _ => 0
    rw [parsePIDs, this] at htrue
    cases htrue
  · intro h pids
    rw [parsePIDs_of_wellFormed h]

theorem pidListed_stored {list : Str} (h : WellFormed list) (pids : ℕ → ℤ) (pid : ℤ) :
    pidListed (stored 0 (numbers list) pids) pid nproc 0 = decide (pid ∈ numbers list) := by
  apply pidListed_eq
  · intro hm
    obtain ⟨f, -, hf⟩ := List.mem_map.mp hm
    have := atoi_nonneg f
    omega
  · rw [numbers, List.length_map]
    exact h.2
  · intro j v hv
    exact stored_get _ _ _ _ _ hv

end Xv6.Proc
