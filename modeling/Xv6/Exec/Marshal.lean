import Xv6.Exec.AllOrNothing

/-! Where the arguments are: what a program finds at `sp`. -/
namespace Xv6.Exec

open Lib Vm Proc

/-- The 64-bit number at a virtual address. -/
def word (img : Image) (a : ℕ) : ℕ := leValue ((List.range 8).map fun k => img.byte (a + k))

/-- The arguments in `[base, top)`: at `sp` the pointers to the strings and a null pointer, above them
the strings with their NULs, each below the one before it. -/
structure ArgLayout (img : Image) (base top sp : ℕ) (argv : List Str) (ptrs : List ℕ) : Prop where
  length : ptrs.length = argv.length
  aligned : sp % 16 = 0
  base_le : base ≤ sp
  array_le : sp + 8 * (argv.length + 1) ≤ top
  pointer : ∀ i p : ℕ, ptrs[i]? = some p → word img (sp + 8 * i) = p
  null : word img (sp + 8 * argv.length) = 0
  string : ∀ (i p : ℕ) (s : Str), ptrs[i]? = some p → argv[i]? = some s →
    ∀ (k : ℕ) (c : UInt8), (s ++ [0])[k]? = some c → img.byte (p + k) = c
  string_le : ∀ (i p : ℕ) (s : Str), ptrs[i]? = some p → argv[i]? = some s → p + (s.length + 1) ≤ top
  array_below : ∀ i p : ℕ, ptrs[i]? = some p → sp + 8 * (argv.length + 1) ≤ p
  string_below : ∀ (i j p q : ℕ) (s : Str), i < j → ptrs[i]? = some p → ptrs[j]? = some q →
    argv[j]? = some s → q + (s.length + 1) ≤ p

variable {img : Image} {argv : List Str} {s : Str} {sp a i j k p q x : ℕ} {xs : List ℕ} {c : UInt8}

/-! The strings. -/

theorem byte_pushedStrings_of_le (h : stringBytes argv ≤ sp) (ha : sp ≤ a) :
    (pushedStrings img sp argv).byte a = img.byte a := by
  induction argv generalizing img sp with
  | nil => rfl
  | cons s argv ih =>
    have hr := le_round16 (s.length + 1)
    have hlen : (s ++ [0]).length = s.length + 1 := List.length_append
    rw [stringBytes_cons] at h
    rw [pushedStrings, ih (by omega) (by omega), Image.byte_write, if_neg (by omega)]

theorem byte_pushedStrings_of_lt (h : stringBytes argv ≤ sp) (ha : a < sp - stringBytes argv) :
    (pushedStrings img sp argv).byte a = img.byte a := by
  induction argv generalizing img sp with
  | nil => rfl
  | cons s argv ih =>
    rw [stringBytes_cons] at h ha
    rw [pushedStrings, ih (by omega) (by omega), Image.byte_write, if_neg (by omega)]

theorem slots_le (h : stringBytes argv ≤ sp) (hi : (slots sp argv)[i]? = some p) :
    sp - stringBytes argv ≤ p ∧ ∀ s, argv[i]? = some s → p + (s.length + 1) ≤ sp := by
  induction argv generalizing sp i with
  | nil => simp [slots] at hi
  | cons s argv ih =>
    have hr := le_round16 (s.length + 1)
    rw [stringBytes_cons] at h
    rw [slots] at hi
    rw [stringBytes_cons]
    cases i with
    | zero =>
      rw [List.getElem?_cons_zero, Option.some.injEq] at hi
      refine ⟨by omega, fun s' hs' => ?_⟩
      rw [List.getElem?_cons_zero, Option.some.injEq] at hs'
      rw [← hs']
      omega
    | succ i =>
      rw [List.getElem?_cons_succ] at hi
      obtain ⟨hlo, hhi⟩ := ih (by omega) hi
      refine ⟨by omega, fun s' hs' => ?_⟩
      rw [List.getElem?_cons_succ] at hs'
      have := hhi s' hs'
      omega

theorem slots_below (h : stringBytes argv ≤ sp) (hij : i < j) (hi : (slots sp argv)[i]? = some p)
    (hj : (slots sp argv)[j]? = some q) (hs : argv[j]? = some s) : q + (s.length + 1) ≤ p := by
  induction argv generalizing sp i j with
  | nil => simp [slots] at hi
  | cons s' argv ih =>
    rw [stringBytes_cons] at h
    rw [slots] at hi hj
    obtain ⟨j, rfl⟩ : ∃ j', j = j' + 1 := ⟨j - 1, by omega⟩
    rw [List.getElem?_cons_succ] at hj hs
    cases i with
    | zero =>
      rw [List.getElem?_cons_zero, Option.some.injEq] at hi
      rw [← hi]
      exact (slots_le (by omega) hj).2 s hs
    | succ i =>
      rw [List.getElem?_cons_succ] at hi
      exact ih (by omega) (by omega) hi hj hs

theorem byte_pushedStrings (h : stringBytes argv ≤ sp) (hi : (slots sp argv)[i]? = some p)
    (hs : argv[i]? = some s) (hc : (s ++ [0])[k]? = some c) :
    (pushedStrings img sp argv).byte (p + k) = c := by
  induction argv generalizing img sp i with
  | nil => simp [slots] at hi
  | cons s' argv ih =>
    have hlen : (s' ++ [0]).length = s'.length + 1 := List.length_append
    rw [stringBytes_cons] at h
    rw [slots] at hi
    rw [pushedStrings]
    cases i with
    | zero =>
      rw [List.getElem?_cons_zero, Option.some.injEq] at hi hs
      subst hs
      obtain ⟨hk, -⟩ := List.getElem?_eq_some_iff.mp hc
      rw [← hi, byte_pushedStrings_of_le (by omega) (by omega), Image.byte_write, if_pos (by omega),
        Nat.add_sub_cancel_left, List.getD_eq_getElem?_getD, hc, Option.getD_some]
    | succ i =>
      rw [List.getElem?_cons_succ] at hi hs
      exact ih (by omega) hi hs

/-! The pointers. -/

theorem getElem?_words (hi : xs[i]? = some x) (hk : k < 8) :
    (xs.flatMap (leBytes 8))[8 * i + k]? = (leBytes 8 x)[k]? := by
  induction xs generalizing i with
  | nil => simp at hi
  | cons y xs ih =>
    rw [List.flatMap_cons]
    cases i with
    | zero =>
      rw [List.getElem?_cons_zero, Option.some.injEq] at hi
      rw [hi, Nat.mul_zero, Nat.zero_add, List.getElem?_append_left (by rw [length_leBytes]; exact hk)]
    | succ i =>
      rw [List.getElem?_cons_succ] at hi
      rw [List.getElem?_append_right (by rw [length_leBytes]; omega), length_leBytes,
        show 8 * (i + 1) + k - 8 = 8 * i + k by omega]
      exact ih hi

theorem word_write (hi : xs[i]? = some x) (hx : x < 2 ^ 64) :
    word (img.write a (xs.flatMap (leBytes 8))) (a + 8 * i) = x := by
  obtain ⟨hlt, -⟩ := List.getElem?_eq_some_iff.mp hi
  have hbytes : (List.range 8).map (fun k => (img.write a (xs.flatMap (leBytes 8))).byte (a + 8 * i + k)) =
      leBytes 8 x := by
    apply List.ext_getElem
    · rw [List.length_map, List.length_range, length_leBytes]
    · intro k hk hk'
      rw [length_leBytes] at hk'
      have hget := getElem?_words hi hk'
      rw [List.getElem_map, List.getElem_range, Image.byte_write,
        if_pos (by rw [length_words]; omega), show a + 8 * i + k - a = 8 * i + k by omega,
        List.getD_eq_getElem?_getD, hget, List.getElem?_eq_getElem (by rw [length_leBytes]; exact hk'),
        Option.getD_some]
  rw [word, hbytes, leValue_leBytes]
  exact Nat.mod_eq_of_lt hx

theorem argLayout_pushedArgs {base : ℕ} (hbase : base + pgSize = sp) (hfit : argBytes argv ≤ pgSize)
    (hsp : sp % 16 = 0) (hlt : sp < 2 ^ 64) :
    ArgLayout (pushedArgs img sp argv) base sp (sp - argBytes argv) argv (slots sp argv) := by
  have hr := le_round16 (8 * (argv.length + 1))
  have hmod := stringBytes_mod argv
  have hmod' := round16_mod (8 * (argv.length + 1))
  have hs : stringBytes argv ≤ sp := by
    unfold argBytes at hfit
    omega
  have hwords : ((slots sp argv ++ [0]).flatMap (leBytes 8)).length = 8 * (argv.length + 1) := by
    rw [length_words, List.length_append, length_slots]
    rfl
  have hbelow : ∀ i p, (slots sp argv)[i]? = some p → sp - argBytes argv + 8 * (argv.length + 1) ≤ p :=
    fun i p hp => by
      have := (slots_le hs hp).1
      unfold argBytes at *
      omega
  refine ⟨length_slots sp argv, ?_, by omega, ?_, fun i p hp => ?_, ?_, fun i p s hp hs' k c hc => ?_,
    fun i p s hp hs' => (slots_le hs hp).2 s hs', hbelow,
    fun i j p q s hij hp hq hs' => slots_below hs hij hp hq hs'⟩
  · unfold argBytes
    omega
  · unfold argBytes at *
    omega
  · obtain ⟨hi, -⟩ := List.getElem?_eq_some_iff.mp hp
    refine word_write ?_ ?_
    · rw [List.getElem?_append_left hi, hp]
    · rw [length_slots] at hi
      have := (slots_le hs hp).2 _ (List.getElem?_eq_getElem hi)
      omega
  · refine word_write ?_ (by decide)
    rw [List.getElem?_append_right (by rw [length_slots]), length_slots, Nat.sub_self]
    rfl
  · have hge := hbelow i p hp
    rw [pushedArgs, Image.byte_write, hwords, if_neg (by omega)]
    exact byte_pushedStrings hs hp hs' hc

theorem byte_pushedArgs_of_lt {base : ℕ} (hbase : base + pgSize = sp) (hfit : argBytes argv ≤ pgSize)
    (ha : a < base) : (pushedArgs img sp argv).byte a = img.byte a := by
  have hs : stringBytes argv ≤ pgSize := by
    unfold argBytes at hfit
    omega
  rw [pushedArgs, Image.byte_write, if_neg (by omega)]
  exact byte_pushedStrings_of_lt (by omega) (by omega)

variable {L : Layout} {S : State} {t : Radix.Tree fanout ℕ 2} {A : Multiset ℕ}

theorem trapframe_fields (pg : Page) (sp entry : ℕ) (hsp : sp < 2 ^ 64) :
    (((pg.setLE tfA1 8 sp).setLE tfEpc 8 entry).setLE tfSp 8 sp).getLE tfA1 8 = sp ∧
      (((pg.setLE tfA1 8 sp).setLE tfEpc 8 entry).setLE tfSp 8 sp).getLE tfSp 8 = sp := by
  constructor
  · rw [Bytes.getLE_setLE_of_disjoint (by decide), Bytes.getLE_setLE_of_disjoint (by decide),
      Bytes.getLE_setLE_self (by decide)]
    exact Nat.mod_eq_of_lt hsp
  · rw [Bytes.getLE_setLE_self (by decide)]
    exact Nat.mod_eq_of_lt hsp

theorem argBytes_nil : argBytes [] ≤ pgSize := by decide

theorem Accepts.congr {fs : Files} {path : Str} {argv argv' : List Str} {m : Kmem} {ip : ℕ}
    {x : ℕ × Image} (h : Accepts fs path argv m ip x) (hfit : argBytes argv' ≤ pgSize) :
    Accepts fs path argv' m ip x :=
  ⟨h.found, h.program, hfit, h.supplies⟩

/-- `exec` fails because of the arguments exactly if they do not fit in the page of the stack.
Otherwise they are at `sp`, which `a1` points to, and the image below the page is that of the file. -/
theorem exec_marshals_args (fs : Files) (path : Str) (argv : ArgVec) (h : Ready L S t img A) :
    ∃ r s', exec L fs path argv.strings S = .ok (r, s') ∧
      (r = none ↔ pgSize < argBytes argv.strings ∨ ∃ s'', exec L fs path [] S = .ok (none, s'')) ∧
      ∀ argc, r = some argc → argc = argv.strings.length ∧
        ∃ (ip sz sp : ℕ) (img₀ img' : Image) (t' : Radix.Tree fanout ℕ 2) (ptrs : List ℕ),
          fs.namei path = some ip ∧ program (fs.content ip) = some (sz, img₀) ∧
          s'.proc.pagetable = t'.label ∧ Ready L s' t' img' A ∧
          (s'.kmem.page s'.proc.trapframe).getLE tfA1 8 = sp ∧
          (s'.kmem.page s'.proc.trapframe).getLE tfSp 8 = sp ∧
          ArgLayout img' (s'.proc.sz - pgSize) s'.proc.sz sp argv.strings ptrs ∧
          ∀ a < s'.proc.sz - pgSize, img'.byte a = (withStack sz img₀).byte a := by
  obtain ⟨r, s', hrun, -, hres⟩ := (exec_spec fs path h argv.short argv.few).exists_ok
  obtain ⟨r₀, s₀, hrun₀, -, hres₀⟩ := (exec_spec fs path h
    (fun s hs => absurd hs List.not_mem_nil) (by decide)).exists_ok
  refine ⟨r, s', hrun, ?_, ?_⟩
  · cases r with
    | none =>
      refine ⟨fun _ => ?_, fun _ => rfl⟩
      by_cases hfit : argBytes argv.strings ≤ pgSize
      · right
        cases r₀ with
        | none => exact ⟨s₀, hrun₀⟩
        | some argc =>
          obtain ⟨-, ip, x, hacc, -⟩ := hres₀
          exact absurd (hacc.congr hfit) (hres.2 ip x)
      · exact Or.inl (not_le.mp hfit)
    | some argc =>
      obtain ⟨-, ip, x, hacc, -⟩ := hres
      refine ⟨fun hn => (by cases hn), fun hc => ?_⟩
      rcases hc with hbig | ⟨s'', hnone⟩
      · exact absurd hacc.fits (not_le.mpr hbig)
      · rw [hrun₀, Except.ok.injEq, Prod.mk.injEq] at hnone
        rw [hnone.1] at hres₀
        exact absurd (hacc.congr argBytes_nil) (hres₀.2 ip x)
  · intro argc hr
    rw [hr] at hres
    obtain ⟨hargc, ip, x, hacc, hrep⟩ := hres
    obtain ⟨t', hlabel, hready⟩ := hrep.ready h
    obtain ⟨t₁, hproc, -⟩ := hrep.space
    have hsz : s'.proc.sz = stackTop x.1 := by rw [hproc]
    have htf : s'.proc.trapframe = S.proc.trapframe := by rw [hproc]
    have hle := hready.uvm.sz_le
    rw [hsz, pgSize_eq] at hle
    have htop : stackTop x.1 - pgSize + pgSize = stackTop x.1 := by
      unfold stackTop
      rw [pgSize_eq]
      omega
    have hmod : stackTop x.1 % 16 = 0 := by
      unfold stackTop
      rw [pgSize_eq]
      omega
    obtain ⟨ha1, hsp⟩ := trapframe_fields (S.kmem.page S.proc.trapframe)
      (stackTop x.1 - argBytes argv.strings)
      (Elfhdr.ofBytes (Fs.flatRead (fs.content ip) 0 elfhdrSize)).entry (by omega)
    refine ⟨hargc, ip, x.1, stackTop x.1 - argBytes argv.strings, x.2, _, t',
      slots (stackTop x.1) argv.strings, hacc.found, hacc.program, hlabel, hready, ?_, ?_, ?_, ?_⟩
    · rw [htf, hrep.trapframe, ha1]
    · rw [htf, hrep.trapframe, hsp]
    · rw [hsz]
      exact argLayout_pushedArgs htop hacc.fits hmod (by omega)
    · rw [hsz]
      exact fun a ha => byte_pushedArgs_of_lt htop hacc.fits ha

/-- With the arguments `echo`, `a` and `bc`. -/
theorem exec_marshals_args_three : ∃ S s',
    exec smallKernel noSegments [] [lit "echo", lit "a", lit "bc"] S = .ok (some 3, s') ∧
      ∃ (sp : ℕ) (img' : Image) (ptrs : List ℕ), ArgLayout img' (s'.proc.sz - pgSize) s'.proc.sz sp
        [lit "echo", lit "a", lit "bc"] ptrs := by
  obtain ⟨S, t, img, A, h, hsup⟩ := exists_ready
  have hargv : ∀ s ∈ [lit "echo", lit "a", lit "bc"], s.length < pgSize := by decide
  obtain ⟨s₁, hrun₁⟩ := exec_of_accepts h hargv (by decide) (noSegments_accepts (by decide) hsup)
  obtain ⟨r, s', hrun, -, hsome⟩ := exec_marshals_args noSegments []
    ⟨[lit "echo", lit "a", lit "bc"], by decide, hargv, by decide⟩ h
  rw [hrun₁, Except.ok.injEq, Prod.mk.injEq] at hrun
  obtain ⟨rfl, rfl⟩ := hrun
  obtain ⟨-, ip, sz, sp, img₀, img', t', ptrs, -, -, -, -, -, -, hlayout, -⟩ := hsome 3 rfl
  exact ⟨S, s₁, hrun₁, sp, img', ptrs, hlayout⟩

end Xv6.Exec
