import Mathlib.Data.List.TakeWhile
import Xv6.Fs.Dir
import Xv6.User.Echo

/-! `fmtname` and `clean_fmtname` of `user/ls.c`, on the memory of the process. `fmtname` returns its
static buffer for a short name and a pointer into the path for one of `DIRSIZ` characters, which has no
space after it. -/
namespace Xv6.User.Ls

open Fs Echo

abbrev Mem := ℕ → UInt8

/-- The loop of `strlen` and of `clean_fmtname`: how far the first `c` is, and the addresses read. -/
def scan (mem : Mem) (c : UInt8) : ℕ → ℕ → Option (ℕ × List ℕ)
  | 0, _ => none
  | fuel + 1, a =>
    if mem a = c then some (0, [a])
    else do
      let (n, reads) ← scan mem c fuel (a + 1)
      some (n + 1, a :: reads)

def strlen (mem : Mem) (fuel s : ℕ) : Option (ℕ × List ℕ) := scan mem 0 fuel s

/-- `for(p = path + k; p >= path && *p != '/'; p--); p++`, for a path that is not at address 0. -/
def scanBack (mem : Mem) (path : ℕ) : ℕ → ℕ × List ℕ
  | 0 => if mem path = 47 then (path + 1, [path]) else (path, [path])
  | k + 1 =>
    if mem (path + (k + 1)) = 47 then (path + (k + 1) + 1, [path + (k + 1)])
    else ((scanBack mem path k).1, (path + (k + 1)) :: (scanBack mem path k).2)

def memmove (mem : Mem) (dst src n : ℕ) : Mem := fun a =>
  if dst ≤ a ∧ a < dst + n then mem (src + (a - dst)) else mem a

def memset (mem : Mem) (dst : ℕ) (c : UInt8) (n : ℕ) : Mem := fun a =>
  if dst ≤ a ∧ a < dst + n then c else mem a

/-- Memory and the pointer returned, with every address that was read or written. -/
structure Returned where
  mem : Mem
  ptr : ℕ
  touched : List ℕ

/-- `fmtname` with its static array at `buf`. Calls of `strlen(p)` with no write between them are one. -/
def fmtname (buf : ℕ) (mem : Mem) (fuel path : ℕ) : Option Returned := do
  let (k, r₁) ← strlen mem fuel path
  let (p, r₂) := scanBack mem path k
  let (len, r₃) ← strlen mem fuel p
  if dirsiz ≤ len then some ⟨mem, p, r₁ ++ r₂ ++ r₃⟩
  else
    let mem₁ := memmove mem buf p len
    let (len₁, r₄) ← strlen mem₁ fuel p
    some ⟨memset mem₁ (buf + len₁) 32 (dirsiz - len₁), buf,
      r₁ ++ r₂ ++ r₃ ++ List.range' p len ++ List.range' buf len ++ r₄ ++
        List.range' (buf + len₁) (dirsiz - len₁)⟩

def cleanFmtname (mem : Mem) (fuel name : ℕ) : Option Returned := do
  let (stop, reads) ← scan mem 32 fuel name
  some ⟨Function.update mem (name + stop) 0, name, reads ++ [name + stop]⟩

def cleanName (buf : ℕ) (mem : Mem) (fuel path : ℕ) : Option Returned := do
  let r ← fmtname buf mem fuel path
  let r' ← cleanFmtname r.mem fuel r.ptr
  some ⟨r'.mem, r'.ptr, r.touched ++ r'.touched⟩

def lastComponent (s : Str) : Str := (s.reverse.takeWhile (· ≠ 47)).reverse

/-- A path whose last component is a name as `ls -m` prints it. -/
structure Named (s : Str) : Prop where
  ne_nil : lastComponent s ≠ []
  length_le : (lastComponent s).length ≤ dirsiz
  no_space : 32 ∉ lastComponent s

/-- The path is a string in memory that does not run into the array from below. -/
structure Placed (buf : ℕ) (mem : Mem) (path : ℕ) (s : Str) : Prop where
  string : StringAt mem path s
  apart : path + s.length < buf ∨ buf ≤ path

/-- A byte of `fmtname`'s array, or of the path up to its NUL. -/
def Allowed (buf path : ℕ) (s : Str) (a : ℕ) : Prop :=
  (buf ≤ a ∧ a < buf + (dirsiz + 1)) ∨ (path ≤ a ∧ a ≤ path + s.length)

/-- The call ends, has touched only what it may, and returns the last component. -/
def Recovers (buf : ℕ) (mem : Mem) (path : ℕ) (s : Str) : Prop :=
  ∃ fuel r, cleanName buf mem fuel path = some r ∧ (∀ a ∈ r.touched, Allowed buf path s a) ∧
    StringAt r.mem r.ptr (lastComponent s)

/-- The name is shorter than `DIRSIZ`, or the array is right behind the path and has a space. -/
def Recoverable (buf : ℕ) (mem : Mem) (path : ℕ) (s : Str) : Prop :=
  (lastComponent s).length < dirsiz ∨
    (path + s.length + 1 = buf ∧ ∃ i ≤ dirsiz, mem (buf + i) = 32)

theorem stringAt_iff {mem : Mem} {a : ℕ} {s : Str} :
    StringAt mem a s ↔
      (∀ i c, s[i]? = some c → c ≠ 0 ∧ mem (a + i) = c) ∧ mem (a + s.length) = 0 := by
  induction s generalizing a with
  | nil => simp [StringAt]
  | cons d s ih =>
    rw [StringAt, ih]
    constructor
    · rintro ⟨hd, ha, hs, hend⟩
      refine ⟨fun i c hc => ?_, ?_⟩
      · cases i with
        | zero =>
          cases hc
          exact ⟨hd, ha⟩
        | succ i =>
          have := hs i c hc
          rwa [Nat.add_assoc, Nat.add_comm 1] at this
      · rwa [Nat.add_assoc, Nat.add_comm 1] at hend
    · rintro ⟨hs, hend⟩
      refine ⟨(hs 0 d rfl).1, (hs 0 d rfl).2, fun i c hc => ?_, ?_⟩
      · have := hs (i + 1) c hc
        rwa [Nat.add_assoc, Nat.add_comm 1]
      · rwa [Nat.add_assoc, Nat.add_comm 1]

theorem StringAt.drop {mem : Mem} {a : ℕ} {s t : Str} (h : StringAt mem a (s ++ t)) :
    StringAt mem (a + s.length) t := by
  rw [stringAt_iff] at h ⊢
  refine ⟨fun i c hc => ?_, ?_⟩
  · rw [Nat.add_assoc]
    apply h.1
    rw [List.getElem?_append_right (Nat.le_add_right _ _), Nat.add_sub_cancel_left, hc]
  · rw [Nat.add_assoc, ← List.length_append]
    exact h.2

theorem scan_eq {mem : Mem} {c : UInt8} {n fuel a : ℕ} (hne : ∀ i < n, mem (a + i) ≠ c)
    (heq : mem (a + n) = c) (hfuel : n < fuel) :
    scan mem c fuel a = some (n, List.range' a (n + 1)) := by
  induction n generalizing fuel a with
  | zero =>
    obtain ⟨fuel, rfl⟩ := Nat.exists_eq_succ_of_ne_zero (by omega : fuel ≠ 0)
    rw [Nat.add_zero] at heq
    rw [scan, if_pos heq]
    rfl
  | succ n ih =>
    obtain ⟨fuel, rfl⟩ := Nat.exists_eq_succ_of_ne_zero (by omega : fuel ≠ 0)
    have htail := @ih fuel (a + 1) (fun i hi => by
      have := hne (i + 1) (by omega)
      rwa [Nat.add_assoc, Nat.add_comm 1]) (by rwa [Nat.add_assoc, Nat.add_comm 1]) (by omega)
    have hfirst : mem a ≠ c := hne 0 (by omega)
    rw [scan, if_neg hfirst, htail]
    rfl

theorem scan_some {mem : Mem} {c : UInt8} {n fuel a : ℕ} {reads : List ℕ}
    (h : scan mem c fuel a = some (n, reads)) :
    n < fuel ∧ (∀ i < n, mem (a + i) ≠ c) ∧ mem (a + n) = c ∧ reads = List.range' a (n + 1) := by
  induction fuel generalizing n a reads with
  | zero => cases h
  | succ fuel ih =>
    rw [scan] at h
    split_ifs at h with ha
    · cases h
      exact ⟨Nat.succ_pos fuel, fun i hi => by omega, ha, rfl⟩
    · simp only [Option.bind_eq_bind, Option.bind_eq_some_iff, Prod.exists, Option.some.injEq,
        Prod.mk.injEq] at h
      obtain ⟨m, reads', hrest, rfl, rfl⟩ := h
      obtain ⟨hfuel, hne, heq, rfl⟩ := ih hrest
      refine ⟨by omega, fun i hi => ?_, ?_, rfl⟩
      · cases i with
        | zero => exact ha
        | succ i =>
          have := hne i (by omega)
          rwa [Nat.add_assoc, Nat.add_comm 1] at this
      · rwa [Nat.add_assoc, Nat.add_comm 1] at heq

theorem strlen_eq {mem : Mem} {a fuel : ℕ} {s : Str} (h : StringAt mem a s)
    (hfuel : s.length < fuel) :
    strlen mem fuel a = some (s.length, List.range' a (s.length + 1)) := by
  rw [stringAt_iff] at h
  apply scan_eq _ h.2 hfuel
  intro i hi
  obtain ⟨hne, hmem⟩ := h.1 i _ (List.getElem?_eq_getElem hi)
  rwa [hmem]

theorem scanBack_slash {mem : Mem} {path k : ℕ} (h : mem (path + k) = 47) :
    (scanBack mem path k).1 = path + k + 1 := by
  cases k with
  | zero =>
    rw [Nat.add_zero] at h
    rw [scanBack, if_pos h]
  | succ k => rw [scanBack, if_pos h]

theorem scanBack_eq {mem : Mem} {path j k : ℕ} (hj : j ≤ k)
    (hne : ∀ i, j ≤ i → i ≤ k → mem (path + i) ≠ 47)
    (hslash : ∀ i, j = i + 1 → mem (path + i) = 47) : (scanBack mem path k).1 = path + j := by
  induction k with
  | zero =>
    obtain rfl : j = 0 := by omega
    have hfirst : mem path ≠ 47 := hne 0 (by omega) (by omega)
    rw [scanBack, if_neg hfirst]
    rfl
  | succ k ih =>
    rw [scanBack, if_neg (hne (k + 1) hj (by omega))]
    rcases Nat.lt_or_ge k j with hlt | hle
    · obtain rfl : j = k + 1 := by omega
      exact scanBack_slash (hslash k rfl)
    · exact ih hle fun i hi hik => hne i hi (by omega)

theorem mem_scanBack {mem : Mem} {path k a : ℕ} (h : a ∈ (scanBack mem path k).2) :
    path ≤ a ∧ a ≤ path + k := by
  induction k with
  | zero =>
    rw [scanBack] at h
    split_ifs at h <;> simp at h <;> omega
  | succ k ih =>
    rw [scanBack] at h
    split_ifs at h with hc
    · simp at h
      omega
    · rcases List.mem_cons.mp h with h | h
      · omega
      · have := ih h
        omega

/-- A path is what comes before its last component, ended by a slash if there is anything. -/
theorem exists_lastComponent (s : Str) :
    ∃ dir, s = dir ++ lastComponent s ∧ (dir = [] ∨ ∃ d, dir = d ++ [47]) ∧
      47 ∉ lastComponent s := by
  refine ⟨(s.reverse.dropWhile (· ≠ 47)).reverse, ?_, ?_, ?_⟩
  · rw [lastComponent, ← List.reverse_append, List.takeWhile_append_dropWhile, List.reverse_reverse]
  · cases hd : s.reverse.dropWhile (· ≠ 47) with
    | nil => exact Or.inl rfl
    | cons c t =>
      right
      have hc := List.head?_dropWhile_not (fun c : UInt8 => decide (c ≠ 47)) s.reverse
      rw [hd] at hc
      have hc' : c = 47 := by simpa using hc
      exact ⟨t.reverse, by rw [hc', List.reverse_cons]⟩
  · intro hmem
    rw [lastComponent, List.mem_reverse] at hmem
    simpa using List.mem_takeWhile_imp hmem

theorem scanBack_name {mem : Mem} {path : ℕ} {s : Str} (h : StringAt mem path s) :
    ∃ p, (scanBack mem path s.length).1 = p ∧ path ≤ p ∧
      p + (lastComponent s).length = path + s.length ∧ StringAt mem p (lastComponent s) := by
  obtain ⟨dir, hs, hdir, hno⟩ := exists_lastComponent s
  have hlen : s.length = dir.length + (lastComponent s).length := by
    conv_lhs => rw [hs, List.length_append]
  have hname : StringAt mem (path + dir.length) (lastComponent s) := StringAt.drop (hs ▸ h)
  refine ⟨path + dir.length, ?_, by omega, by omega, hname⟩
  rw [stringAt_iff] at h hname
  apply scanBack_eq (by omega)
  · intro i hi hik
    rcases Nat.lt_or_ge i s.length with hlt | hge
    · have hc := List.getElem?_eq_getElem (l := lastComponent s) (i := i - dir.length) (by omega)
      have hval := (hname.1 _ _ hc).2
      rw [show path + dir.length + (i - dir.length) = path + i by omega] at hval
      rw [hval]
      intro h47
      exact hno (h47 ▸ List.getElem_mem _)
    · rw [show i = s.length by omega, h.2]
      decide
  · intro i hi
    rcases hdir with rfl | ⟨d, rfl⟩
    · cases hi
    · rw [List.length_append, List.length_singleton] at hi
      obtain rfl : d.length = i := by omega
      apply (h.1 _ _ _).2
      rw [hs]
      simp

theorem mem_range'_allowed {buf path a n x : ℕ} {s : Str} (h : x ∈ List.range' a n)
    (hlo : path ≤ a) (hhi : a + n ≤ path + s.length + 1) : Allowed buf path s x := by
  rw [List.mem_range'_1] at h
  right
  omega

theorem mem_range'_allowed_buf {buf path a n x : ℕ} {s : Str} (h : x ∈ List.range' a n)
    (hlo : buf ≤ a) (hhi : a + n ≤ buf + (dirsiz + 1)) : Allowed buf path s x := by
  rw [List.mem_range'_1] at h
  left
  omega

section

variable {buf : ℕ} {mem : Mem} {path : ℕ} {s : Str}

/-- For a name of `DIRSIZ` characters `fmtname` changes nothing and points into the path. -/
theorem fmtname_long (h : StringAt mem path s) (hlen : dirsiz ≤ (lastComponent s).length) :
    ∃ p, path ≤ p ∧ p + (lastComponent s).length = path + s.length ∧
      StringAt mem p (lastComponent s) ∧
      ∃ touched, (∀ a ∈ touched, Allowed buf path s a) ∧
        ∀ fuel, s.length < fuel → fmtname buf mem fuel path = some ⟨mem, p, touched⟩ := by
  obtain ⟨p, hp, hlo, hhi, hname⟩ := scanBack_name h
  refine ⟨p, hlo, hhi, hname, List.range' path (s.length + 1) ++ (scanBack mem path s.length).2 ++
    List.range' p ((lastComponent s).length + 1), ?_, ?_⟩
  · intro a ha
    simp only [List.mem_append] at ha
    rcases ha with (ha | ha) | ha
    · exact mem_range'_allowed ha le_rfl (by omega)
    · exact Or.inr (mem_scanBack ha)
    · exact mem_range'_allowed ha hlo (by omega)
  · intro fuel hfuel
    have hin := strlen_eq h hfuel
    have hrest := strlen_eq hname (show (lastComponent s).length < fuel by omega)
    simp only [fmtname, hin, hp, hrest, hlen, Option.bind_eq_bind, Option.bind_some, if_true]

theorem stringAt_ne_zero {a i : ℕ} {t : Str} (h : StringAt mem a t) (hi : i < t.length) :
    mem (a + i) ≠ 0 := by
  obtain ⟨hne, heq⟩ := (stringAt_iff.mp h).1 i _ (List.getElem?_eq_getElem hi)
  rwa [heq]

theorem strlen_memmove {p n fuel : ℕ} {t : Str} (h : StringAt mem p t) (hn : n = t.length)
    (hapart : p + n < buf ∨ buf ≤ p) (hfuel : n < fuel) :
    strlen (memmove mem buf p n) fuel p = some (n, List.range' p (n + 1)) := by
  subst hn
  apply scan_eq _ _ hfuel
  · intro i hi
    unfold memmove
    split_ifs with hc
    · exact stringAt_ne_zero h (by omega)
    · exact stringAt_ne_zero h hi
  · rw [memmove, if_neg (by omega)]
    exact (stringAt_iff.mp h).2

theorem fmtname_short (h : Placed buf mem path s) (hlen : (lastComponent s).length < dirsiz) :
    ∃ mem' touched, (∀ a ∈ touched, Allowed buf path s a) ∧
      (∀ i c, (lastComponent s)[i]? = some c → mem' (buf + i) = c) ∧
      mem' (buf + (lastComponent s).length) = 32 ∧
      ∀ fuel, s.length < fuel → fmtname buf mem fuel path = some ⟨mem', buf, touched⟩ := by
  obtain ⟨p, hp, hlo, hhi, hname⟩ := scanBack_name h.string
  have hapart := h.apart
  generalize hn : (lastComponent s).length = n at *
  refine ⟨memset (memmove mem buf p n) (buf + n) 32 (dirsiz - n),
    List.range' path (s.length + 1) ++ (scanBack mem path s.length).2 ++ List.range' p (n + 1) ++
      List.range' p n ++ List.range' buf n ++ List.range' p (n + 1) ++
      List.range' (buf + n) (dirsiz - n), ?_, ?_, ?_, ?_⟩
  · intro a ha
    simp only [List.mem_append] at ha
    rcases ha with (((((ha | ha) | ha) | ha) | ha) | ha) | ha
    · exact mem_range'_allowed ha le_rfl (by omega)
    · exact Or.inr (mem_scanBack ha)
    · exact mem_range'_allowed ha hlo (by omega)
    · exact mem_range'_allowed ha hlo (by omega)
    · exact mem_range'_allowed_buf ha le_rfl (by omega)
    · exact mem_range'_allowed ha hlo (by omega)
    · exact mem_range'_allowed_buf ha (by omega) (by omega)
  · intro i c hc
    have hi : i < n := hn ▸ (List.getElem?_eq_some_iff.mp hc).1
    rw [memset, if_neg (by omega), memmove, if_pos (by omega), Nat.add_sub_cancel_left]
    exact ((stringAt_iff.mp hname).1 i c hc).2
  · rw [memset, if_pos (by omega)]
  · intro fuel hfuel
    have hin := strlen_eq h.string hfuel
    have hrest := strlen_eq hname (show (lastComponent s).length < fuel by omega)
    have hagain := @strlen_memmove buf mem p n fuel _ hname hn.symm (by omega) (by omega)
    rw [hn] at hrest
    have hlt : ¬dirsiz ≤ n := by omega
    simp only [fmtname, hin, hp, hrest, hagain, hlt, Option.bind_eq_bind, Option.bind_some, if_false]

theorem recovers_of_short (h : Placed buf mem path s) (hnamed : Named s)
    (hlen : (lastComponent s).length < dirsiz) : Recovers buf mem path s := by
  obtain ⟨mem', touched, hin, hchars, hspace, hrun⟩ := fmtname_short h hlen
  obtain ⟨p, -, hlo, hhi, hname⟩ := scanBack_name h.string
  have hscan : scan mem' 32 (s.length + 1) buf =
      some ((lastComponent s).length, List.range' buf ((lastComponent s).length + 1)) := by
    apply scan_eq _ hspace (by omega)
    intro i hi
    rw [hchars i _ (List.getElem?_eq_getElem hi)]
    intro heq
    exact hnamed.no_space (heq ▸ List.getElem_mem hi)
  refine ⟨s.length + 1, ⟨Function.update mem' (buf + (lastComponent s).length) 0, buf, touched ++
    (List.range' buf ((lastComponent s).length + 1) ++ [buf + (lastComponent s).length])⟩, ?_, ?_, ?_⟩
  · simp only [cleanName, hrun _ (Nat.lt_succ_self _), cleanFmtname, hscan, Option.bind_eq_bind,
      Option.bind_some]
  · intro a ha
    simp only [List.mem_append, List.mem_range'_1, List.mem_singleton] at ha
    rcases ha with ha | ha
    · exact hin a ha
    · left
      omega
  · rw [stringAt_iff]
    refine ⟨fun i c hc => ⟨?_, ?_⟩, Function.update_self _ _ _⟩
    · exact ((stringAt_iff.mp hname).1 i c hc).1
    · have hi := (List.getElem?_eq_some_iff.mp hc).1
      change Function.update mem' _ 0 (buf + i) = c
      rw [Function.update_of_ne (by omega)]
      exact hchars i c hc

/-- What `clean_fmtname` does with a pointer to the name in the path: it finds no space before the NUL. -/
theorem cleanName_long (h : Placed buf mem path s) (hnamed : Named s)
    (hlen : ¬(lastComponent s).length < dirsiz) :
    Recovers buf mem path s ↔
      path + s.length + 1 = buf ∧ ∃ i ≤ dirsiz, mem (buf + i) = 32 := by
  obtain ⟨p, hlo, hhi, hname, touched, hin, hrun⟩ := @fmtname_long buf mem path s h.string (by omega)
  have hle := hnamed.length_le
  have hapart := h.apart
  have hnospace : ∀ i < (lastComponent s).length + 1, mem (p + i) ≠ 32 := by
    intro i hi
    rcases Nat.lt_or_ge i (lastComponent s).length with hlt | hge
    · rw [((stringAt_iff.mp hname).1 i _ (List.getElem?_eq_getElem hlt)).2]
      intro heq
      exact hnamed.no_space (heq ▸ List.getElem_mem hlt)
    · rw [show i = (lastComponent s).length by omega, (stringAt_iff.mp hname).2]
      decide
  constructor
  · rintro ⟨fuel, r, hcall, hok, -⟩
    simp only [cleanName, Option.bind_eq_bind, Option.bind_eq_some_iff] at hcall
    obtain ⟨r₁, hfmt, r₂, hclean, hr⟩ := hcall
    have hfuel : s.length < fuel := by
      by_contra hnot
      simp only [fmtname, Option.bind_eq_bind, Option.bind_eq_some_iff, Prod.exists] at hfmt
      obtain ⟨k, reads, hstr, -⟩ := hfmt
      obtain ⟨hk, -, hzero, -⟩ := scan_some hstr
      exact stringAt_ne_zero h.string (by omega) hzero
    rw [hrun fuel hfuel] at hfmt
    cases hfmt
    simp only [cleanFmtname, Option.bind_eq_bind, Option.bind_eq_some_iff, Prod.exists] at hclean
    obtain ⟨stop, reads, hscan, hr₂⟩ := hclean
    obtain ⟨-, -, hspace, hreads⟩ := scan_some hscan
    have hstop : (lastComponent s).length + 1 ≤ stop := by
      by_contra hlt
      exact hnospace stop (by omega) hspace
    have hread : ∀ i ≤ stop, Allowed buf path s (p + i) := by
      intro i hi
      apply hok
      rw [← Option.some.inj hr, ← Option.some.inj hr₂, hreads]
      simp only [List.mem_append, List.mem_range'_1]
      right
      left
      omega
    have hnext := hread _ hstop
    have hlast := hread stop le_rfl
    unfold Allowed at hnext hlast
    refine ⟨by omega, p + stop - buf, by omega, ?_⟩
    rwa [show buf + (p + stop - buf) = p + stop by omega]
  · rintro ⟨hadj, i, hi, hsp⟩
    -- the first space after the name is in the array, so the name itself is left as it is
    have hex : ∃ e, mem (p + e) = 32 := by
      refine ⟨(lastComponent s).length + 1 + i, ?_⟩
      rwa [show p + ((lastComponent s).length + 1 + i) = buf + i by omega]
    have hfirst : Nat.find hex ≤ (lastComponent s).length + 1 + i := by
      apply Nat.find_min'
      rwa [show p + ((lastComponent s).length + 1 + i) = buf + i by omega]
    have hspace := Nat.find_spec hex
    have hbefore : ∀ j < Nat.find hex, mem (p + j) ≠ 32 := fun j hj => Nat.find_min hex hj
    generalize Nat.find hex = e at *
    have hlate : (lastComponent s).length + 1 ≤ e := by
      by_contra hlt
      exact hnospace e (by omega) hspace
    have hscan := scan_eq hbefore hspace (show e < e + s.length + 1 by omega)
    refine ⟨e + s.length + 1, ⟨Function.update mem (p + e) 0, p, touched ++
      (List.range' p (e + 1) ++ [p + e])⟩, ?_, ?_, ?_⟩
    · simp only [cleanName, hrun _ (show s.length < e + s.length + 1 by omega), cleanFmtname, hscan,
        Option.bind_eq_bind, Option.bind_some]
    · intro a ha
      simp only [List.mem_append, List.mem_range'_1, List.mem_singleton] at ha
      rcases ha with ha | ha
      · exact hin a ha
      · unfold Allowed
        omega
    · rw [stringAt_iff] at hname ⊢
      refine ⟨fun j c hc => ⟨(hname.1 j c hc).1, ?_⟩, ?_⟩
      · have hj := (List.getElem?_eq_some_iff.mp hc).1
        change Function.update mem _ 0 (p + j) = c
        rw [Function.update_of_ne (by omega)]
        exact (hname.1 j c hc).2
      · change Function.update mem _ 0 (p + _) = 0
        rw [Function.update_of_ne (by omega)]
        exact hname.2

theorem recovers_iff (h : Placed buf mem path s) (hnamed : Named s) :
    Recovers buf mem path s ↔ Recoverable buf mem path s := by
  unfold Recoverable
  by_cases hlen : (lastComponent s).length < dirsiz
  · exact iff_of_true (recovers_of_short h hnamed hlen) (Or.inl hlen)
  · rw [cleanName_long h hnamed hlen]
    exact (or_iff_right hlen).symm

end

/-- A call of `clean_fmtname(fmtname(path))`, with memory as it is then. -/
structure Call where
  mem : Mem
  path : ℕ
  s : Str

/-- Calls one after the other, from memory `mem` on. Between two of them the program may change all but
the array. -/
def Shares (buf : ℕ) : Mem → List Call → Prop
  | _, [] => True
  | mem, call :: calls =>
    (∀ i ≤ dirsiz, call.mem (buf + i) = mem (buf + i)) ∧ Placed buf call.mem call.path call.s ∧
      Named call.s ∧
      ∀ fuel r, cleanName buf call.mem fuel call.path = some r → Shares buf r.mem calls

/-- All calls that share the array recover the last components exactly when each is recoverable. -/
theorem cleanName_recovers_iff (buf : ℕ) (mem : Mem) (calls : List Call) (h : Shares buf mem calls) :
    (∀ call ∈ calls, Recovers buf call.mem call.path call.s) ↔
      ∀ call ∈ calls, Recoverable buf call.mem call.path call.s := by
  induction calls generalizing mem with
  | nil => simp
  | cons call calls ih =>
    obtain ⟨-, hplaced, hnamed, hrest⟩ := h
    simp only [List.forall_mem_cons, ← recovers_iff hplaced hnamed]
    apply and_congr_right
    rintro ⟨fuel, r, hcall, -⟩
    exact ih r.mem (hrest fuel r hcall)

def letters (n : ℕ) : Mem := fun a => if 100 ≤ a ∧ a < 100 + n then (a - 3).toUInt8 else 0

theorem placed_letters :
    Placed 0 (letters 3) 100 (lit "abc") ∧ Placed 0 (letters 14) 100 (lit "abcdefghijklmn") := by
  constructor
  · exact ⟨by simp [StringAt, lit, letters], Or.inr (by decide)⟩
  · exact ⟨by simp [StringAt, lit, letters], Or.inr (by decide)⟩

theorem cleanName_recovers_abc :
    Shares 0 (letters 3) [⟨letters 3, 100, lit "abc"⟩] ∧
      Recovers 0 (letters 3) 100 (lit "abc") := by
  have h : Shares 0 (letters 3) [⟨letters 3, 100, lit "abc"⟩] :=
    ⟨fun i _ => rfl, placed_letters.1, ⟨by decide, by decide, by decide⟩, fun _ _ _ => trivial⟩
  refine ⟨h, (cleanName_recovers_iff 0 _ _ h).mpr ?_ _ (List.mem_singleton_self _)⟩
  intro call hcall
  rw [List.mem_singleton] at hcall
  subst hcall
  exact Or.inl (by decide)

/-- A name of 14 letters at address 100 is not recovered: no space follows its NUL. -/
theorem cleanName_dirsiz :
    Placed 0 (letters 14) 100 (lit "abcdefghijklmn") ∧ Named (lit "abcdefghijklmn") ∧
      ¬Recovers 0 (letters 14) 100 (lit "abcdefghijklmn") := by
  have hnamed : Named (lit "abcdefghijklmn") := ⟨by decide, by decide, by decide⟩
  refine ⟨placed_letters.2, hnamed, ?_⟩
  rw [cleanName_long placed_letters.2 hnamed (by decide)]
  rintro ⟨hadj, -⟩
  omega

end Xv6.User.Ls
