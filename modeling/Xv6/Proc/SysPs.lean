import Xv6.Proc.PidBuffers

/-! Which requests make `sys_ps` use an argument string it never fetched. `argc` and the argument
vector come from the user independently, and `ps` trusts `argc`. -/
namespace Xv6.Proc

open Vm

def isPidOption (s : Str) : Bool := strncmp (lit "-p") s 2 == 0

/-- Scanning options from the left ends on a `-p` without its list. -/
def danglingPidOption : List Str → Bool
  | [] => false
  | [s] => isPidOption s
  | s :: t :: rest => if isPidOption s then danglingPidOption rest else danglingPidOption (t :: rest)

/-- The lists that `-p` is followed by, when options are read from the left in `n` places. -/
def pidLists : ℕ → List Str → List Str
  | n + 1, s :: t :: rest => if isPidOption s then t :: pidLists (n - 1) rest else pidLists n (t :: rest)
  | _, _ => []

/-- `parsePIDs` stays within `pids`. -/
def FitsPids (list : Str) : Prop :=
  (fields list).length < nproc ∨ ∃ f ∈ (fields list).take (nproc + 1), ¬(f ≠ [] ∧ f.length ≤ 9)

theorem fitsPids_iff {list : Str} : FitsPids list ↔ ¬nproc < writes (fields list) := by
  rw [not_lt, writes_le_iff]
  rfl

theorem argvAt_ok {args : List Str} {i : ℕ} (hi : i < args.length) (h : args.length < maxArg) :
    argvAt args i = .ok args[i] := by
  unfold argvAt
  rw [if_pos (by omega), List.getElem?_eq_getElem hi]

theorem argvAt_error {args : List Str} {i : ℕ} (hi : args.length ≤ i) :
    ∃ f, argvAt args i = .error f := by
  unfold argvAt
  split_ifs
  · rw [List.getElem?_eq_none hi]
    exact ⟨_, rfl⟩
  · exact ⟨_, rfl⟩

theorem not_earlier_of_isPidOption {s : Str} (h : isPidOption s = true) :
    strncmp (lit "r") s 1 ≠ 0 ∧ strncmp (lit "-l") s 2 ≠ 0 := by
  have hp : strncmp (lit "-p") s 2 = 0 := by simpa [isPidOption] using h
  have h0 : (45 : UInt8) = s.headD 0 := strncmp_head hp
  have h1 : (112 : UInt8) = s.tail.headD 0 := strncmp_head (strncmp_tail hp (by decide))
  constructor
  · intro hr
    have : (114 : UInt8) = s.headD 0 := strncmp_head hr
    exact absurd (h0.trans this.symm) (by decide)
  · intro hl
    have : (108 : UInt8) = s.tail.headD 0 := strncmp_head (strncmp_tail hl (by decide))
    exact absurd (h1.trans this.symm) (by decide)

/-- One round of the argument loop at a fetched string: it reads one more string at a `-p`, and
otherwise goes on with some options. -/
theorem psLoop_succ {args : List Str} {argc : ℤ} {i : ℕ} (fuel : ℕ) (o : PsOptions)
    (hi : i < args.length) (h : args.length < maxArg) (hc : (i : ℤ) < argc) :
    if isPidOption args[i] then
      (i + 1 = args.length ∧ ∃ f, psLoop args argc (fuel + 1) i o = .error f) ∨
        ∃ hlt : i + 1 < args.length,
          (¬FitsPids args[i + 1] ∧ ∃ f, psLoop args argc (fuel + 1) i o = .error f) ∨
            FitsPids args[i + 1] ∧
              ∃ o', psLoop args argc (fuel + 1) i o = psLoop args argc fuel (i + 2) o'
    else ∃ o', psLoop args argc (fuel + 1) i o = psLoop args argc fuel (i + 1) o' := by
  have hrun : argvAt args i = .ok args[i] := argvAt_ok hi h
  split_ifs with hp
  · obtain ⟨hr, hl⟩ := not_earlier_of_isPidOption hp
    have hp' : strncmp (lit "-p") args[i] 2 = 0 := by simpa [isPidOption] using hp
    rw [psLoop, if_pos hc, hrun]
    rcases Nat.lt_or_ge (i + 1) args.length with hlt | hge
    · refine Or.inr ⟨hlt, ?_⟩
      rw [fitsPids_iff, not_not]
      simp only [bind, Except.bind, hr, hl, hp', if_false, if_true, argvAt_ok hlt h]
      by_cases hover : nproc < writes (fields args[i + 1])
      · exact Or.inl ⟨hover, _, if_pos hover⟩
      · exact Or.inr ⟨hover, _, if_neg hover⟩
    · obtain ⟨f, hf⟩ := argvAt_error hge
      refine Or.inl ⟨by omega, f, ?_⟩
      simp only [bind, Except.bind, hr, hl, hp', if_false, if_true, hf]
  · have hp' : strncmp (lit "-p") args[i] 2 ≠ 0 := by simpa [isPidOption] using hp
    rw [psLoop, if_pos hc, hrun]
    simp only [bind, Except.bind, hp', if_false]
    split_ifs <;> exact ⟨_, rfl⟩

theorem pidLists_drop {args : List Str} {i : ℕ} (n : ℕ) (hi : i < args.length) :
    pidLists (n + 1) (args.drop i) =
      if isPidOption args[i] then
        if h : i + 1 < args.length then args[i + 1] :: pidLists (n - 1) (args.drop (i + 2)) else []
      else pidLists n (args.drop (i + 1)) := by
  rw [List.drop_eq_getElem_cons hi]
  rcases Nat.lt_or_ge (i + 1) args.length with hlt | hge
  · rw [List.drop_eq_getElem_cons hlt, pidLists, dif_pos hlt]
  · rw [List.drop_eq_nil_of_le hge, dif_neg (by omega)]
    cases n <;> simp [pidLists]

theorem danglingPidOption_drop {args : List Str} {i : ℕ} (hi : i < args.length) :
    danglingPidOption (args.drop i) =
      if isPidOption args[i] then
        if i + 1 = args.length then true else danglingPidOption (args.drop (i + 2))
      else danglingPidOption (args.drop (i + 1)) := by
  rw [List.drop_eq_getElem_cons hi]
  rcases Nat.lt_or_ge (i + 1) args.length with hlt | hge
  · rw [List.drop_eq_getElem_cons hlt, danglingPidOption, if_neg (show ¬i + 1 = args.length by omega)]
  · have he : i + 1 = args.length := by omega
    rw [he, List.drop_length, danglingPidOption, if_pos rfl]
    cases h : isPidOption args[i] <;> simp [danglingPidOption, h]

theorem lt_of_danglingPidOption_drop (args : List Str) (i : ℕ)
    (h : danglingPidOption (args.drop i) = true) : i < args.length := by
  by_contra hge
  rw [List.drop_eq_nil_of_le (by omega)] at h
  exact absurd h (by decide)

theorem psLoop_error {args : List Str} {argc : ℤ} {i : ℕ} (fuel : ℕ) (o : PsOptions)
    (hi : args.length ≤ i) (hc : (i : ℤ) < argc) :
    ∃ f, psLoop args argc (fuel + 1) i o = .error f := by
  obtain ⟨f, hf⟩ := argvAt_error hi
  refine ⟨f, ?_⟩
  rw [psLoop, if_pos hc, hf]
  rfl

/-- The argument loop runs through exactly when `argc` counts fetched strings only, the last of them is
not a `-p` still waiting for its list, and the lists have room in `pids`. -/
theorem psLoop_ok_iff {args : List Str} (argc : ℤ) (h : args.length < maxArg) (fuel i : ℕ)
    (o : PsOptions) (hf : argc ≤ fuel + i) :
    (∃ r, psLoop args argc fuel i o = .ok r) ↔
      argc ≤ i ∨ argc ≤ args.length ∧
        ¬(argc = args.length ∧ danglingPidOption (args.drop i) = true) ∧
        ∀ list ∈ pidLists (argc - i).toNat (args.drop i), FitsPids list := by
  induction fuel generalizing i o with
  | zero =>
    have hle : argc ≤ i := by simpa using hf
    simp [psLoop, hle]
  | succ fuel ih =>
    rcases lt_or_ge (i : ℤ) argc with hc | hc
    · obtain ⟨n, hn⟩ : ∃ n : ℕ, argc = i + n + 1 := ⟨(argc - i - 1).toNat, by omega⟩
      have hn₀ : (argc - i).toNat = n + 1 := by omega
      have hn₁ : (argc - (i + 1 : ℕ)).toNat = n := by omega
      have hn₂ : (argc - (i + 2 : ℕ)).toNat = n - 1 := by omega
      rw [hn₀]
      rcases Nat.lt_or_ge i args.length with hi | hi
      · have hstep := psLoop_succ fuel o hi h hc
        rw [danglingPidOption_drop hi, pidLists_drop n hi]
        split_ifs at hstep ⊢ with hp he hlt
        · omega
        · obtain ⟨-, f, herr⟩ | ⟨hlt, -⟩ := hstep
          · rw [herr]
            simp only [reduceCtorEq, exists_false, false_iff, and_true]
            omega
          · omega
        · rw [List.forall_mem_cons]
          obtain ⟨hend, -⟩ | ⟨hlt', ⟨hover, f, herr⟩ | ⟨hfits, o', hrun⟩⟩ := hstep
          · omega
          · rw [herr]
            simp only [reduceCtorEq, exists_false, false_iff, hover, false_and, and_false, or_false]
            omega
          · rw [hrun, ih (i + 2) o' (by push_cast at hf ⊢; omega), hn₂]
            have := lt_of_danglingPidOption_drop args (i + 2)
            have hnone : n ≤ 1 → ∀ list ∈ pidLists (n - 1) (args.drop (i + 2)), FitsPids list := by
              intro hle list hlist
              rw [show n - 1 = 0 by omega, pidLists.eq_def] at hlist
              cases hlist
            generalize (∀ list ∈ pidLists (n - 1) (args.drop (i + 2)), FitsPids list) = rest at *
            push_cast
            grind
        · omega
        · obtain ⟨o', hrun⟩ := hstep
          rw [hrun, ih (i + 1) o' (by push_cast at hf ⊢; omega), hn₁]
          have := lt_of_danglingPidOption_drop args (i + 1)
          have hnone : n = 0 → ∀ list ∈ pidLists n (args.drop (i + 1)), FitsPids list := by
            rintro rfl list hlist
            rw [pidLists.eq_def] at hlist
            cases hlist
          generalize (∀ list ∈ pidLists n (args.drop (i + 1)), FitsPids list) = rest at *
          push_cast
          grind
      · obtain ⟨f, herr⟩ := psLoop_error fuel o hi hc
        rw [herr]
        simp only [reduceCtorEq, exists_false, false_iff]
        omega
    · rw [psLoop, if_neg (by omega)]
      simp [hc]

/-- `sys_ps` uses only strings it fetched exactly when fetching fails, or there is no argument
after the first, or `argc` is at most the number of fetched strings and, if it is all of them, no
`-p` is left without its list, and every list has room in `pids`: an overrun reaches `argv`. -/
theorem sysPs_safe_iff (table : List ProcEntry) (pids : ℕ → ℤ) (u : UserMem) (kalloc : ℕ → Bool)
    (a0 a1 : BitVec 64) :
    (∃ r, sysPs table pids u kalloc a0 a1 = .ok r) ↔
      ∀ args, fetchArgv u kalloc a1.toNat = some args →
        argint a0 ≤ 1 ∨ argint a0 ≤ args.length ∧
          ¬(argint a0 = args.length ∧ danglingPidOption args.tail = true) ∧
          ∀ list ∈ pidLists (argint a0 - 1).toNat args.tail, FitsPids list := by
  unfold sysPs
  cases hargs : fetchArgv u kalloc a1.toNat with
  | none => simp
  | some args =>
    have hlen := fetchArgv_length hargs
    have hloop := psLoop_ok_iff (argint a0) hlen (argint a0).toNat 1
      ⟨false, false, false, pids⟩ (by omega)
    rw [List.drop_one] at hloop
    simp only [Option.some.injEq, forall_eq']
    rw [← Nat.cast_one, ← hloop]
    unfold ps
    cases psLoop args (argint a0) (argint a0).toNat 1 ⟨false, false, false, pids⟩ with
    | error f => simp [bind, Except.bind, Except.map]
    | ok o => simp [bind, Except.bind, Except.map]

/-- `argc` is 2 and the only argument is the program's name: `ps` compares the null `argv[1]`. -/
theorem sysPs_null_flag :
    sysPs [] (fun _ => 0) psCallerMem (fun _ => true) 2 0 = .error (.null 1) := by
  unfold sysPs
  rw [show (0 : BitVec 64).toNat = 0 from rfl, fetchArgv_psCallerMem]
  rfl

end Xv6.Proc
