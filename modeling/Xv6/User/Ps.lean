import Xv6.Proc.PidList
import Xv6.Proc.SysPs

/-! The front end `user/ps.c` and the kernel's `ps` as two readers of one command language: options `r`
and `-l`, and `-p` with a list of process ids. -/
namespace Xv6.User

open Proc

def strcmp : Str → Str → ℤ
  | [], q => -(q.headD 0).toNat
  | c :: p, q =>
    if c ≠ 0 ∧ c = q.headD 0 then strcmp p q.tail else c.toNat - (q.headD 0).toNat

def isValidFlag (arg : Str) : Bool :=
  strcmp (lit "r") arg == 0 || strcmp (lit "-l") arg == 0 || strcmp (lit "-p") arg == 0

def isValidPidList (arg : Str) : Bool := arg.all fun c => (48 ≤ c && c ≤ 57) || c == 44

/-- The loop of `main` from index `i` on: whether it ends without an error. `zero` is the string at
address 0, which `argv[argc]` points to. -/
def mainLoop (zero : Str) (argv : List Str) : ℕ → ℕ → Bool
  | 0, _ => true
  | fuel + 1, i =>
    if i < argv.length then
      if isValidFlag (argv.getD i zero) = false then false
      else if strcmp (argv.getD i zero) (lit "-p") = 0 ∧
          isValidPidList (argv.getD (i + 1) zero) = false then false
      else mainLoop zero argv fuel (i + 2)
    else true

def main (zero : Str) (argv : List Str) : Bool := mainLoop zero argv argv.length 1

/-- The system call with this argument vector: `none` is the return value -1 of a vector that is too
long. -/
def psCall (table : List ProcEntry) (pids : ℕ → ℤ) (argv : List Str) :
    Except ArgvFault (Option (List PsLine)) :=
  if argv.length < maxArg then (ps table pids argv.length argv).map some else .ok none

/-- It is `sys_ps` with what the user program has in its registers and in memory. -/
theorem sysPs_eq_psCall (table : List ProcEntry) (pids : ℕ → ℤ) {u : Vm.UserMem} {kalloc : ℕ → Bool}
    {a0 a1 : BitVec 64} {argv : List Str} (hv : fetchArgv u kalloc a1.toNat = some argv)
    (hc : argint a0 = argv.length) :
    sysPs table pids u kalloc a0 a1 = psCall table pids argv := by
  rw [sysPs, hv, psCall, if_pos (fetchArgv_length hv), ← hc]

inductive Opt where
  | running
  | long
  | pids (list : Str)
  deriving DecidableEq

def options : List Str → Option (List Opt)
  | [] => some []
  | arg :: rest =>
    if strcmp (lit "r") arg = 0 then (options rest).map (.running :: ·)
    else if strcmp (lit "-l") arg = 0 then (options rest).map (.long :: ·)
    else if strcmp (lit "-p") arg = 0 then
      match rest with
      | [] => none
      | list :: rest => if isValidPidList list then (options rest).map (.pids list :: ·) else none
    else none

def lastList : List Opt → Option Str
  | [] => none
  | .pids list :: opts => some ((lastList opts).getD list)
  | _ :: opts => lastList opts

def requested (opts : List Opt) (table : List ProcEntry) : List PsLine :=
  .header (decide (.long ∈ opts)) :: (table.filter fun p =>
      p.state ≠ .unused ∧ (.running ∈ opts → p.state = .running) ∧
        ∀ list ∈ lastList opts, p.pid ∈ numbers list).map fun p =>
    if .long ∈ opts then .long p.pid (p.ppid.getD 0) p.kstack p.state p.sz p.name
    else .short p.pid p.name

theorem strncmp_of_strcmp {p q : Str} (h : strcmp p q = 0) (n : ℕ) : strncmp p q n = 0 := by
  induction p generalizing q n with
  | nil =>
    have hq : (q.headD 0).toNat = 0 := by
      unfold strcmp at h
      omega
    cases n with
    | zero => rfl
    | succ n =>
      rw [strncmp, if_neg fun hc => hc.1 rfl, hq]
      rfl
  | cons c p ih =>
    cases n with
    | zero => rfl
    | succ n =>
      unfold strcmp at h
      rw [strncmp]
      split_ifs at h with hc
      · rw [if_pos (show (c :: p).headD 0 ≠ 0 ∧ (c :: p).headD 0 = q.headD 0 from hc)]
        exact ih h n
      · rw [if_neg (show ¬((c :: p).headD 0 ≠ 0 ∧ (c :: p).headD 0 = q.headD 0) from hc)]
        exact h

def applyOpt (o : PsOptions) : Opt → PsOptions
  | .running => { o with onlyRunningProcesses := true }
  | .long => { o with longList := true }
  | .pids list => { o with
      pidFilter := o.pidFilter || (parsePIDs list o.pids).1, pids := (parsePIDs list o.pids).2 }

theorem psLoop_flag {argv : List Str} {i : ℕ} (fuel : ℕ) (o : PsOptions) (hi : i < argv.length)
    (h : argv.length < maxArg) :
    (strcmp (lit "r") argv[i] = 0 → psLoop argv argv.length (fuel + 1) i o =
      psLoop argv argv.length fuel (i + 1) (applyOpt o .running)) ∧
    (strcmp (lit "-l") argv[i] = 0 → psLoop argv argv.length (fuel + 1) i o =
      psLoop argv argv.length fuel (i + 1) (applyOpt o .long)) := by
  have hc : (i : ℤ) < (argv.length : ℤ) := by omega
  refine ⟨fun hr => ?_, fun hl => ?_⟩
  · rw [psLoop, if_pos hc, argvAt_ok hi h]
    simp only [bind, Except.bind, strncmp_of_strcmp hr, if_true]
    rfl
  · have hl' := strncmp_of_strcmp hl 2
    have hr : strncmp (lit "r") argv[i] 1 ≠ 0 := by
      intro hr
      have h0 : (45 : UInt8) = argv[i].headD 0 := strncmp_head hl'
      have h1 : (114 : UInt8) = argv[i].headD 0 := strncmp_head hr
      exact absurd (h0.trans h1.symm) (by decide)
    rw [psLoop, if_pos hc, argvAt_ok hi h]
    simp only [bind, Except.bind, hr, hl', if_false, if_true]
    rfl

theorem psLoop_pids {argv : List Str} {i fuel : ℕ} {o : PsOptions} (hi : i + 1 < argv.length)
    (h : argv.length < maxArg) (hp : strcmp (lit "-p") argv[i] = 0) (hw : WellFormed argv[i + 1]) :
    psLoop argv argv.length (fuel + 1) i o =
      psLoop argv argv.length fuel (i + 2) (applyOpt o (.pids argv[i + 1])) := by
  have hc : (i : ℤ) < (argv.length : ℤ) := by omega
  have hp' := strncmp_of_strcmp hp 2
  obtain ⟨hr, hl⟩ := not_earlier_of_isPidOption (s := argv[i]) (by simp [isPidOption, hp'])
  rw [psLoop, if_pos hc, argvAt_ok (by omega) h]
  simp only [bind, Except.bind, hr, hl, hp', if_false, if_true, argvAt_ok hi h]
  exact if_neg (fitsPids_iff.mp (Or.inl hw.2))

theorem psLoop_options {argv : List Str} (h : argv.length < maxArg) (fuel i : ℕ) (o : PsOptions)
    {opts : List Opt} (hf : argv.length ≤ fuel + i) (ho : options (argv.drop i) = some opts)
    (hw : ∀ list, .pids list ∈ opts → WellFormed list) :
    psLoop argv argv.length fuel i o = .ok (opts.foldl applyOpt o) := by
  induction fuel generalizing i o opts with
  | zero =>
    rw [List.drop_eq_nil_of_le (by omega)] at ho
    cases ho
    rfl
  | succ fuel ih =>
    rcases Nat.lt_or_ge i argv.length with hi | hi
    · obtain ⟨hr, hl⟩ := psLoop_flag fuel o hi h
      rw [List.drop_eq_getElem_cons hi, options.eq_def] at ho
      simp only at ho
      split_ifs at ho with hc₁ hc₂ hc₃
      · obtain ⟨opts', ho', rfl⟩ := Option.map_eq_some_iff.mp ho
        rw [hr hc₁]
        exact ih (i + 1) _ (by omega) ho' fun l hl => hw l (List.mem_cons_of_mem _ hl)
      · obtain ⟨opts', ho', rfl⟩ := Option.map_eq_some_iff.mp ho
        rw [hl hc₂]
        exact ih (i + 1) _ (by omega) ho' fun l hl => hw l (List.mem_cons_of_mem _ hl)
      · rcases Nat.lt_or_ge (i + 1) argv.length with hi' | hi'
        · rw [List.drop_eq_getElem_cons hi'] at ho
          simp only at ho
          split_ifs at ho
          obtain ⟨opts', ho', rfl⟩ := Option.map_eq_some_iff.mp ho
          rw [psLoop_pids hi' h hc₃ (hw _ List.mem_cons_self)]
          exact ih (i + 2) _ (by omega) ho' fun l hl => hw l (List.mem_cons_of_mem _ hl)
        · rw [List.drop_eq_nil_of_le hi'] at ho
          cases ho
    · rw [List.drop_eq_nil_of_le hi] at ho
      cases ho
      rw [psLoop, if_neg (by omega)]
      rfl

theorem foldl_applyOpt (opts : List Opt) (o : PsOptions)
    (h : ∀ list, .pids list ∈ opts → WellFormed list) :
    (opts.foldl applyOpt o).onlyRunningProcesses =
        (o.onlyRunningProcesses || decide (.running ∈ opts)) ∧
      (opts.foldl applyOpt o).longList = (o.longList || decide (.long ∈ opts)) ∧
      match lastList opts with
      | none => (opts.foldl applyOpt o).pidFilter = o.pidFilter ∧
          (opts.foldl applyOpt o).pids = o.pids
      | some list => WellFormed list ∧ (opts.foldl applyOpt o).pidFilter = true ∧
          ∃ pids, (opts.foldl applyOpt o).pids = stored 0 (numbers list) pids := by
  induction opts generalizing o with
  | nil => simp [lastList]
  | cons opt opts ih =>
    have hrest := ih (applyOpt o opt) fun list hl => h list (List.mem_cons_of_mem _ hl)
    rw [List.foldl_cons]
    cases opt with
    | running =>
      obtain ⟨h₁, h₂, h₃⟩ := hrest
      exact ⟨h₁.trans (by simp [applyOpt]), h₂.trans (by simp [applyOpt]), h₃⟩
    | long =>
      obtain ⟨h₁, h₂, h₃⟩ := hrest
      exact ⟨h₁.trans (by simp [applyOpt]), h₂.trans (by simp [applyOpt]), h₃⟩
    | pids list =>
      obtain ⟨h₁, h₂, h₃⟩ := hrest
      have hw := h list List.mem_cons_self
      refine ⟨h₁.trans (by simp [applyOpt]), h₂.trans (by simp [applyOpt]), ?_⟩
      rw [lastList]
      cases hl : lastList opts with
      | none =>
        rw [hl] at h₃
        rw [Option.getD_none]
        refine ⟨hw, h₃.1.trans ?_, o.pids, h₃.2.trans ?_⟩
        · simp [applyOpt, parsePIDs_of_wellFormed hw.1]
        · simp [applyOpt, parsePIDs_of_wellFormed hw.1]
      | some last =>
        rw [hl] at h₃
        exact h₃

theorem psLines_options {opts : List Opt} (h : ∀ list, .pids list ∈ opts → WellFormed list)
    (table : List ProcEntry) (pids : ℕ → ℤ) :
    psLines (opts.foldl applyOpt ⟨false, false, false, pids⟩) table = requested opts table := by
  obtain ⟨h₁, h₂, h₃⟩ := foldl_applyOpt opts ⟨false, false, false, pids⟩ h
  rw [Bool.false_or] at h₁ h₂
  have hfilter : ∀ p : ProcEntry,
      ((opts.foldl applyOpt ⟨false, false, false, pids⟩).pidFilter = true →
        pidListed (opts.foldl applyOpt ⟨false, false, false, pids⟩).pids p.pid nproc 0 = true) ↔
      ∀ list ∈ lastList opts, p.pid ∈ numbers list := by
    intro p
    cases hl : lastList opts with
    | none =>
      rw [hl] at h₃
      simp [h₃.1]
    | some list =>
      rw [hl] at h₃
      obtain ⟨hw, hf, m, hm⟩ := h₃
      rw [hf, hm, pidListed_stored hw]
      simp
  unfold psLines requested
  simp only [h₁, h₂, hfilter, decide_eq_true_eq]
  congr 3
  funext p
  congr 1
  simp only [decide_eq_false_iff_not, eq_iff_iff]
  tauto

end Xv6.User
