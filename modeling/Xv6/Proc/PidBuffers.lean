import Xv6.Proc.PidList

/-! The buffers of `parsePIDs`: which elements of `args`, `pidstr` and `pids` it touches. -/
namespace Xv6.Proc

inductive Access where
  | args (i : ℕ)
  | pidstr (i : ℕ)
  | pids (i : ℕ)
  deriving DecidableEq

/-- The inner loop from `args[i]` on. `none` is the return when `pidstr` is full. -/
def copyField (args : Str) (i pidstrI : ℕ) (pidstr : ℕ → UInt8) :
    List Access × Option (ℕ × ℕ × (ℕ → UInt8)) :=
  if args.getD i 0 ≠ 44 ∧ i < args.length then
    if pidstrI + 1 ≥ 10 then ([.args i, .pidstr pidstrI], none)
    else
      let (log, r) :=
        copyField args (i + 1) (pidstrI + 1) (Function.update pidstr pidstrI (args.getD i 0))
      (.args i :: .pidstr pidstrI :: log, r)
  else ([.args i], some (i, pidstrI, pidstr))
termination_by args.length - i

def atoiBuf (pidstr : ℕ → UInt8) : ℕ → ℕ → ℤ → List Access × ℤ
  | 0, _, n => ([], n)
  | fuel + 1, j, n =>
    if 48 ≤ pidstr j ∧ pidstr j ≤ 57 then
      let (log, v) := atoiBuf pidstr fuel (j + 1) (n * 10 + (pidstr j).toNat - 48)
      (.pidstr j :: log, v)
    else ([.pidstr j], n)

theorem copyField_le {args : Str} {i k i' k' : ℕ} {pidstr pidstr' : ℕ → UInt8}
    (h : (copyField args i k pidstr).2 = some (i', k', pidstr')) : i ≤ i' := by
  fun_induction copyField args i k pidstr with
  | case1 => cases h
  | case2 i k pidstr hc hk log r hr ih =>
    have := ih (by rw [hr]; exact h)
    omega
  | case3 =>
    cases h
    exact le_rfl

/-- The outer loop from index `i` on: what is touched, whether 0 is returned, and `pids`. The digits
are read before the buffer is cleared; a read past its end would be in the log. -/
def parsePIDsLoop (args : Str) (i pidsI : ℕ) (pidstr : ℕ → UInt8) (pids : ℕ → ℤ) :
    List Access × Bool × (ℕ → ℤ) :=
  if i < args.length then
    match _ : copyField args i 0 pidstr with
    | (log, none) => (log, false, pids)
    | (log, some (i', pidstrI, pidstr)) =>
      if pidstrI = 0 then (log, false, pids)
      else
        let (reads, pid) := atoiBuf (Function.update pidstr pidstrI 0) 11 0 0
        let (later, ret) := parsePIDsLoop args (i' + 1) (pidsI + 1)
          (fun j => if j < 10 then 0 else Function.update pidstr pidstrI 0 j)
          (Function.update pids pidsI pid)
        (log ++ .pidstr pidstrI :: reads ++ .pids pidsI :: (List.range 10).map .pidstr ++ later, ret)
  else ([.pids pidsI], true, Function.update pids pidsI (-1))
termination_by args.length - i
decreasing_by
  have := copyField_le (congrArg Prod.snd ‹copyField args i 0 _ = _›)
  omega

/-- The whole function: `strlen` reads the string with its NUL. -/
def parsePIDsBuf (args : Str) (pidstr : ℕ → UInt8) (pids : ℕ → ℤ) : List Access × Bool × (ℕ → ℤ) :=
  let (log, ret) := parsePIDsLoop args 0 0 pidstr pids
  ((List.range (args.length + 1)).map .args ++ log, ret)

def Access.Local (args : Str) : Access → Prop
  | .args i => i ≤ args.length
  | .pidstr i => i < 10
  | .pids _ => False

def Access.Within (args : Str) : Access → Prop
  | .pids i => i < nproc
  | a => a.Local args

def fieldAt (args : Str) (i : ℕ) : Str := (args.drop i).takeWhile (· ≠ 44)

theorem fieldAt_cons {args : Str} {i : ℕ} (h : args.getD i 0 ≠ 44 ∧ i < args.length) :
    fieldAt args i = args.getD i 0 :: fieldAt args (i + 1) := by
  obtain ⟨hc, hi⟩ := h
  rw [List.getD_eq_getElem _ _ hi] at hc ⊢
  rw [fieldAt, List.drop_eq_getElem_cons hi, List.takeWhile_cons, if_pos (by simpa using hc), fieldAt]

theorem fieldAt_nil {args : Str} {i : ℕ} (h : ¬(args.getD i 0 ≠ 44 ∧ i < args.length)) :
    fieldAt args i = [] := by
  rcases Nat.lt_or_ge i args.length with hi | hi
  · have hc : args[i] = 44 := by
      rw [List.getD_eq_getElem _ _ hi] at h
      by_contra hc
      exact h ⟨hc, hi⟩
    rw [fieldAt, List.drop_eq_getElem_cons hi, hc]
    rfl
  · rw [fieldAt, List.drop_eq_nil_of_le hi]
    rfl

/-- `pidstr` with a field copied to it from index `k` on. -/
def pasted (k : ℕ) : Str → (ℕ → UInt8) → ℕ → UInt8
  | [], pidstr => pidstr
  | c :: field, pidstr => pasted (k + 1) field (Function.update pidstr k c)

theorem copyField_spec (args : Str) (i k : ℕ) (pidstr : ℕ → UInt8) (hi : i ≤ args.length)
    (hk : k ≤ 9) :
    (∀ a ∈ (copyField args i k pidstr).1, a.Local args) ∧
      (copyField args i k pidstr).2 =
        if k + (fieldAt args i).length ≤ 9 then
          some (i + (fieldAt args i).length, k + (fieldAt args i).length,
            pasted k (fieldAt args i) pidstr)
        else none := by
  fun_induction copyField args i k pidstr with
  | case1 i k pidstr hc hk' =>
    rw [fieldAt_cons hc, List.length_cons, if_neg (by omega)]
    refine ⟨?_, rfl⟩
    simp only [List.forall_mem_cons, List.not_mem_nil, false_imp_iff, implies_true, and_true]
    exact ⟨hi, show k < 10 by omega⟩
  | case2 i k pidstr hc hk' log r hr ih =>
    obtain ⟨hlog, hres⟩ := ih (by omega) (by omega)
    rw [hr] at hlog hres
    rw [fieldAt_cons hc, List.length_cons]
    constructor
    · rw [List.forall_mem_cons, List.forall_mem_cons]
      exact ⟨hi, show k < 10 by omega, hlog⟩
    · have h₁ : i + 1 + (fieldAt args (i + 1)).length = i + ((fieldAt args (i + 1)).length + 1) := by
        omega
      have h₂ : k + 1 + (fieldAt args (i + 1)).length = k + ((fieldAt args (i + 1)).length + 1) := by
        omega
      rw [h₁, h₂] at hres
      exact hres
  | case3 i k pidstr hc =>
    rw [fieldAt_nil hc]
    refine ⟨?_, by simp [hk, pasted]⟩
    intro a ha
    rw [List.mem_singleton.mp ha]
    exact hi

theorem pasted_get (field : Str) (k j : ℕ) (pidstr : ℕ → UInt8) :
    pasted k field pidstr j =
      if k ≤ j ∧ j < k + field.length then field.getD (j - k) 0 else pidstr j := by
  induction field generalizing k pidstr with
  | nil => simp [pasted]
  | cons c field ih =>
    rw [pasted, ih, List.length_cons]
    rcases Nat.lt_trichotomy j k with hlt | rfl | hgt
    · rw [if_neg (by omega), if_neg (by omega), Function.update_of_ne (by omega)]
    · rw [if_neg (by omega), if_pos (by omega), Function.update_self, Nat.sub_self]
      rfl
    · rw [show j - k = j - (k + 1) + 1 by omega, List.getD_cons_succ,
        Function.update_of_ne (by omega)]
      by_cases hj : j < k + 1 + field.length
      · rw [if_pos (by omega), if_pos (by omega)]
      · rw [if_neg (by omega), if_neg (by omega)]

theorem atoiBuf_spec (pidstr : ℕ → UInt8) (field : Str) (fuel j : ℕ) (n : ℤ)
    (hf : field.length < fuel) (hj : j + field.length ≤ 9)
    (hget : ∀ x (h : x < field.length), pidstr (j + x) = field[x])
    (hnul : pidstr (j + field.length) = 0) (args : Str) :
    (∀ a ∈ (atoiBuf pidstr fuel j n).1, a.Local args) ∧
      (atoiBuf pidstr fuel j n).2 = atoiFrom n field := by
  induction field generalizing fuel j n with
  | nil =>
    obtain ⟨fuel, rfl⟩ : ∃ m, fuel = m + 1 := ⟨fuel - 1, by simp at hf; omega⟩
    simp only [List.length_nil, Nat.add_zero] at hnul hj
    rw [atoiBuf, hnul, if_neg (by decide)]
    refine ⟨?_, rfl⟩
    intro a ha
    rw [List.mem_singleton.mp ha]
    exact show j < 10 by omega
  | cons c field ih =>
    obtain ⟨fuel, rfl⟩ : ∃ m, fuel = m + 1 := ⟨fuel - 1, by simp at hf; omega⟩
    simp only [List.length_cons] at hnul hj hf
    have hc : pidstr j = c := hget 0 (by simp)
    rw [atoiBuf, hc, atoiFrom]
    have hlocal : (Access.pidstr j).Local args := show j < 10 by omega
    split_ifs with hdigit
    · obtain ⟨hlog, hval⟩ := ih fuel (j + 1) (n * 10 + c.toNat - 48) (by omega) (by omega)
        (fun x hx => by
          rw [show j + 1 + x = j + (x + 1) by omega]
          exact hget (x + 1) (by simpa using hx))
        (by rw [show j + 1 + field.length = j + (field.length + 1) by omega]; exact hnul)
      exact ⟨List.forall_mem_cons.mpr ⟨hlocal, hlog⟩, hval⟩
    · refine ⟨?_, rfl⟩
      intro a ha
      rw [List.mem_singleton.mp ha]
      exact hlocal

theorem fields_drop {args : Str} {i : ℕ} (h : i < args.length) :
    fields (args.drop i) =
      fieldAt args i :: fields (args.drop (i + (fieldAt args i).length + 1)) ∧
    ((args.drop i).dropWhile (· ≠ 44)).tail = args.drop (i + (fieldAt args i).length + 1) := by
  have hne : [] ++ args.drop i ≠ [] := by
    rw [List.nil_append, ← List.length_pos_iff, List.length_drop]
    omega
  have htail : ((args.drop i).dropWhile (· ≠ 44)).tail =
      args.drop (i + (fieldAt args i).length + 1) := by
    have hsplit := List.takeWhile_append_dropWhile (p := (· ≠ (44 : UInt8))) (l := args.drop i)
    have hdrop := congrArg (List.drop (fieldAt args i).length) hsplit
    rw [fieldAt, List.drop_left, List.drop_drop] at hdrop
    rw [hdrop, List.tail_drop, fieldAt]
  refine ⟨?_, htail⟩
  rw [fields, fieldsFrom_eq [] (args.drop i) hne, htail, List.nil_append]
  rfl

structure LoopSpec (args : Str) (i pidsI : ℕ) (pids : ℕ → ℤ) (r : List Access × Bool × (ℕ → ℤ)) :
    Prop where
  mem : ∀ a ∈ r.1, a.Local args ∨
    ∃ j, a = .pids j ∧ pidsI ≤ j ∧ j < pidsI + writes (fields (args.drop i))
  written : ∀ j, pidsI ≤ j → j < pidsI + writes (fields (args.drop i)) → .pids j ∈ r.1
  result : ∀ fuel, args.length ≤ fuel + i → r.2 = parsePIDsFrom fuel (args.drop i) pidsI pids

theorem parsePIDsFrom_drop {args : Str} {i : ℕ} (hi : i < args.length) (fuel pidsI : ℕ)
    (pids : ℕ → ℤ) :
    parsePIDsFrom (fuel + 1) (args.drop i) pidsI pids =
      if fieldAt args i ≠ [] ∧ (fieldAt args i).length ≤ 9 then
        parsePIDsFrom fuel (args.drop (i + (fieldAt args i).length + 1)) (pidsI + 1)
          (Function.update pids pidsI (atoi (fieldAt args i)))
      else (false, pids) := by
  have htail := (fields_drop hi).2
  obtain ⟨c, s, hcs⟩ := List.exists_cons_of_ne_nil
    (show args.drop i ≠ [] by rw [← List.length_pos_iff, List.length_drop]; omega)
  have hrun := parsePIDsFrom_cons fuel c s pidsI pids
  rw [← hcs, htail] at hrun
  exact hrun

theorem LoopSpec.rejected {args : Str} {i pidsI : ℕ} {pids : ℕ → ℤ} {log : List Access}
    (hi : i < args.length) (hbad : ¬(fieldAt args i ≠ [] ∧ (fieldAt args i).length ≤ 9))
    (hlog : ∀ a ∈ log, a.Local args) : LoopSpec args i pidsI pids (log, false, pids) := by
  have hw : writes (fields (args.drop i)) = 0 := by
    rw [(fields_drop hi).1, writes, if_neg hbad]
  constructor
  · exact fun a ha => Or.inl (hlog a ha)
  · intro j h₁ h₂
    omega
  · intro fuel hf
    obtain ⟨fuel, rfl⟩ : ∃ m, fuel = m + 1 := ⟨fuel - 1, by omega⟩
    rw [parsePIDsFrom_drop hi, if_neg hbad]

theorem LoopSpec.accepted {args : Str} {i pidsI : ℕ} {pids : ℕ → ℤ} {log log' : List Access}
    {r : List Access × Bool × (ℕ → ℤ)} (hi : i < args.length)
    (hgood : fieldAt args i ≠ [] ∧ (fieldAt args i).length ≤ 9) (hlog : ∀ a ∈ log, a.Local args)
    (hlog' : ∀ a ∈ log', a.Local args)
    (h : LoopSpec args (i + (fieldAt args i).length + 1) (pidsI + 1)
      (Function.update pids pidsI (atoi (fieldAt args i))) r) :
    LoopSpec args i pidsI pids (log ++ .pids pidsI :: log' ++ r.1, r.2) := by
  have hw : writes (fields (args.drop i)) =
      writes (fields (args.drop (i + (fieldAt args i).length + 1))) + 1 := by
    rw [(fields_drop hi).1, writes, if_pos hgood]
  constructor
  · intro a ha
    rw [hw]
    simp only [List.mem_append, List.mem_cons] at ha
    rcases ha with (ha | rfl | ha) | ha
    · exact Or.inl (hlog a ha)
    · exact Or.inr ⟨pidsI, rfl, by omega, by omega⟩
    · exact Or.inl (hlog' a ha)
    · rcases h.mem a ha with hl | ⟨j, rfl, h₁, h₂⟩
      · exact Or.inl hl
      · exact Or.inr ⟨j, rfl, by omega, by omega⟩
  · intro j h₁ h₂
    rw [hw] at h₂
    simp only [List.mem_append, List.mem_cons]
    rcases Nat.eq_or_lt_of_le h₁ with rfl | hlt
    · exact Or.inl (Or.inr (Or.inl rfl))
    · exact Or.inr (h.written j (by omega) (by omega))
  · intro fuel hf
    obtain ⟨fuel, rfl⟩ : ∃ m, fuel = m + 1 := ⟨fuel - 1, by omega⟩
    rw [parsePIDsFrom_drop hi, if_pos hgood]
    exact h.result fuel (by omega)

/-- The accesses of the parser, and which entries of `pids` it writes. -/
theorem parsePIDsLoop_spec (args : Str) (i pidsI : ℕ) (pidstr : ℕ → UInt8) (pids : ℕ → ℤ) :
    LoopSpec args i pidsI pids (parsePIDsLoop args i pidsI pidstr pids) := by
  fun_induction parsePIDsLoop args i pidsI pidstr pids with
  | case1 i pidsI pidstr pids hi log hcopy =>
    obtain ⟨hlog, hres⟩ := copyField_spec args i 0 pidstr hi.le (Nat.zero_le _)
    rw [hcopy] at hlog hres
    rw [Nat.zero_add] at hres
    apply LoopSpec.rejected hi _ hlog
    rintro ⟨-, h9⟩
    rw [if_pos h9] at hres
    cases hres
  | case2 i pidsI pidstr pids hi log i' pidstr' hcopy =>
    obtain ⟨hlog, hres⟩ := copyField_spec args i 0 pidstr hi.le (Nat.zero_le _)
    rw [hcopy] at hlog hres
    rw [Nat.zero_add] at hres
    apply LoopSpec.rejected hi _ hlog
    rintro ⟨h0, h9⟩
    rw [if_pos h9] at hres
    obtain ⟨-, hlen⟩ := Prod.mk.inj (Option.some.inj hres)
    exact h0 (List.length_eq_zero_iff.mp (Prod.mk.inj hlen).1.symm)
  | case3 i pidsI pidstr pids hi log i' k pidstr' hcopy hk reads pid hatoi later ret hlater ih =>
    obtain ⟨hlog, hres⟩ := copyField_spec args i 0 pidstr hi.le (Nat.zero_le _)
    rw [hcopy] at hlog hres
    rw [Nat.zero_add] at hres
    split_ifs at hres with h9
    cases hres
    have hgood : fieldAt args i ≠ [] ∧ (fieldAt args i).length ≤ 9 :=
      ⟨fun h0 => hk (by rw [h0, List.length_nil]), h9⟩
    obtain ⟨hreads, hval⟩ := atoiBuf_spec
      (Function.update (pasted 0 (fieldAt args i) pidstr) (fieldAt args i).length 0) (fieldAt args i)
      11 0 0 (by omega) (by omega)
      (fun x hx => by
        rw [Nat.zero_add, Function.update_of_ne (by omega), pasted_get, if_pos (by omega),
          Nat.sub_zero, List.getD_eq_getElem _ _ hx])
      (by rw [Nat.zero_add, Function.update_self]) args
    rw [hatoi] at hreads hval
    obtain rfl : pid = atoi (fieldAt args i) := hval
    rw [hlater] at ih
    have hbefore : ∀ a ∈ log ++ .pidstr (fieldAt args i).length :: reads, a.Local args := by
      intro a ha
      simp only [List.mem_append, List.mem_cons] at ha
      rcases ha with ha | rfl | ha
      · exact hlog a ha
      · exact show (fieldAt args i).length < 10 by omega
      · exact hreads a ha
    have hclear : ∀ a ∈ (List.range 10).map Access.pidstr, a.Local args := by
      intro a ha
      obtain ⟨j, hj, rfl⟩ := List.mem_map.mp ha
      exact List.mem_range.mp hj
    exact LoopSpec.accepted hi hgood hbefore hclear ih
  | case4 i pidsI pidstr pids hi =>
    have hdrop : args.drop i = [] := List.drop_eq_nil_of_le (by omega)
    constructor
    · rw [hdrop]
      intro a ha
      exact Or.inr ⟨pidsI, List.mem_singleton.mp ha, le_rfl, Nat.lt_succ_self _⟩
    · rw [hdrop]
      intro j h₁ h₂
      have h₂' : j < pidsI + 1 := h₂
      rw [show j = pidsI by omega]
      exact List.mem_singleton_self _
    · rw [hdrop]
      intro fuel _
      cases fuel with
      | zero => rfl
      | succ fuel => rfl

theorem parsePIDsBuf_eq (args : Str) (pidstr : ℕ → UInt8) (pids : ℕ → ℤ) :
    (parsePIDsBuf args pidstr pids).2 = parsePIDs args pids :=
  (parsePIDsLoop_spec args 0 0 pidstr pids).result args.length le_rfl

theorem mem_parsePIDsBuf (args : Str) (pidstr : ℕ → UInt8) (pids : ℕ → ℤ) :
    (∀ a ∈ (parsePIDsBuf args pidstr pids).1, a.Local args ∨
      ∃ j, a = .pids j ∧ j < writes (fields args)) ∧
    ∀ j < writes (fields args), .pids j ∈ (parsePIDsBuf args pidstr pids).1 := by
  have hspec := parsePIDsLoop_spec args 0 0 pidstr pids
  constructor
  · intro a ha
    rcases List.mem_append.mp ha with ha | ha
    · obtain ⟨i, hi, rfl⟩ := List.mem_map.mp ha
      exact Or.inl (Nat.le_of_lt_succ (List.mem_range.mp hi))
    · rcases hspec.mem a ha with hl | ⟨j, rfl, -, hj⟩
      · exact Or.inl hl
      · rw [Nat.zero_add] at hj
        exact Or.inr ⟨j, rfl, hj⟩
  · intro j hj
    exact List.mem_append_right _ (hspec.written j (Nat.zero_le _) (by rwa [Nat.zero_add]))

theorem writes_le_iff (fs : List Str) (m : ℕ) :
    writes fs ≤ m ↔ fs.length < m ∨ ∃ f ∈ fs.take (m + 1), ¬(f ≠ [] ∧ f.length ≤ 9) := by
  induction fs generalizing m with
  | nil => simp [writes, Nat.one_le_iff_ne_zero, Nat.pos_iff_ne_zero]
  | cons f fs ih =>
    rw [writes, List.take_succ_cons, List.length_cons]
    by_cases hf : f ≠ [] ∧ f.length ≤ 9
    · rw [if_pos hf]
      cases m with
      | zero => simp [hf]
      | succ m =>
        rw [Nat.add_le_add_iff_right, ih m, Nat.add_lt_add_iff_right]
        apply or_congr_right
        simp only [List.mem_cons, exists_eq_or_imp]
        rw [or_iff_right (not_not.mpr hf)]
    · rw [if_neg hf]
      exact iff_of_true (Nat.zero_le m) (Or.inr ⟨f, List.mem_cons_self, hf⟩)

theorem exists_terminator {args : Str} {pids : ℕ → ℤ} (hw : writes (fields args) ≤ nproc)
    (hret : (parsePIDs args pids).1 = true) : ∃ i < nproc, (parsePIDs args pids).2 i = -1 := by
  have hgood : ∀ f ∈ fields args, f ≠ [] ∧ f.length ≤ 9 := by
    by_contra hbad
    have hspec := parsePIDsFrom_spec args.length args 0 pids le_rfl
    rw [if_neg hbad] at hspec
    exact absurd (hret.symm.trans hspec) (by decide)
  have hlen : (fields args).length < nproc := by
    rcases (writes_le_iff _ _).mp hw with hlen | ⟨f, hf, hbad⟩
    · exact hlen
    · exact absurd (hgood f (List.mem_of_mem_take hf)) hbad
  rw [parsePIDs_of_wellFormed hgood]
  refine ⟨(numbers args).length, by rwa [numbers, List.length_map], ?_⟩
  have hget := stored_get (numbers args) 0 (numbers args).length pids (-1) (by simp)
  rwa [Nat.zero_add] at hget

/-- Every access is within its buffer, and a list that is accepted ends within `pids`. -/
def StaysWithin (args : Str) : Prop :=
  ∀ pidstr pids, (∀ a ∈ (parsePIDsBuf args pidstr pids).1, a.Within args) ∧
    ((parsePIDsBuf args pidstr pids).2.1 = true →
      ∃ i < nproc, (parsePIDsBuf args pidstr pids).2.2 i = -1)

/-- `parsePIDs` stays within its buffers exactly if the list has fewer than `NPROC` fields, or one of
the first `NPROC` + 1 is empty or too long. -/
theorem parsePIDs_staysWithin_iff (args : Str) :
    StaysWithin args ↔ (fields args).length < nproc ∨
      ∃ f ∈ (fields args).take (nproc + 1), ¬(f ≠ [] ∧ f.length ≤ 9) := by
  rw [← writes_le_iff]
  constructor
  · intro h
    by_contra hlt
    have hmem := (mem_parsePIDsBuf args (fun _ => 0) fun _ => 0).2 nproc (by omega)
    exact absurd ((h (fun _ => 0) fun _ => 0).1 _ hmem) (Nat.lt_irrefl _)
  · intro hw pidstr pids
    constructor
    · intro a ha
      rcases (mem_parsePIDsBuf args pidstr pids).1 a ha with hl | ⟨j, rfl, hj⟩
      · cases a with
        | args i => exact hl
        | pidstr i => exact hl
        | pids i => exact hl.elim
      · exact Nat.lt_of_lt_of_le hj hw
    · rw [parsePIDsBuf_eq]
      exact exists_terminator hw

def fullList : Str := (List.replicate nproc [49, 44]).flatten

theorem parsePIDs_fullList :
    .pids nproc ∈ (parsePIDsBuf fullList (fun _ => 0) fun _ => 0).1 ∧ ¬StaysWithin fullList := by
  have hw : nproc < writes (fields fullList) := by decide +kernel
  have hmem := (mem_parsePIDsBuf fullList (fun _ => 0) fun _ => 0).2 nproc hw
  refine ⟨hmem, fun h => ?_⟩
  exact absurd ((h (fun _ => 0) fun _ => 0).1 _ hmem) (Nat.lt_irrefl _)

end Xv6.Proc
