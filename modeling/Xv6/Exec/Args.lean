import Xv6.Exec.Headers

/-! The arguments on the stack: where `exec` puts them, and that this is what it does if they fit. -/
namespace Xv6.Exec

open Lib Vm Proc

/-- The space for `n` bytes on a stack that stays aligned. -/
def round16 (n : ℕ) : ℕ := (n + 15) / 16 * 16

def stringBytes (argv : List Str) : ℕ := (argv.map fun s => round16 (s.length + 1)).sum

/-- The space that the strings and the pointers to them take. -/
def argBytes (argv : List Str) : ℕ := stringBytes argv + round16 (8 * (argv.length + 1))

def slots (sp : ℕ) : List Str → List ℕ
  | [] => []
  | s :: argv => (sp - round16 (s.length + 1)) :: slots (sp - round16 (s.length + 1)) argv

def pushedStrings (img : Image) (sp : ℕ) : List Str → Image
  | [] => img
  | s :: argv => pushedStrings (img.write (sp - round16 (s.length + 1)) (s ++ [0]))
      (sp - round16 (s.length + 1)) argv

def pushedArgs (img : Image) (sp : ℕ) (argv : List Str) : Image :=
  (pushedStrings img sp argv).write (sp - argBytes argv) ((slots sp argv ++ [0]).flatMap (leBytes 8))

variable {L : Layout} {m m' : Kmem} {t : Radix.Tree fanout ℕ 2} {img img' : Image} {A : Multiset ℕ}
  {argv : List Str} {s : Str} {n tf sp a i : ℕ} {ustack : List ℕ}

theorem le_round16 (n : ℕ) : n ≤ round16 n := by
  unfold round16
  omega

theorem round16_mod (n : ℕ) : round16 n % 16 = 0 := Nat.mul_mod_left _ _

theorem sub64_align (hsp : sp % 16 = 0) (hn : n ≤ sp) (hlt : sp < 2 ^ 64) :
    sub64 sp n - sub64 sp n % 16 = sp - round16 n := by
  have hsub : sub64 sp n = sp - n := by
    unfold sub64
    omega
  rw [hsub]
  unfold round16
  omega

@[simp] theorem length_slots (sp : ℕ) (argv : List Str) : (slots sp argv).length = argv.length := by
  induction argv generalizing sp with
  | nil => rfl
  | cons s argv ih => rw [slots, List.length_cons, List.length_cons, ih]

@[simp] theorem flags_pushedStrings : (pushedStrings img sp argv).flags = img.flags := by
  induction argv generalizing img sp with
  | nil => rfl
  | cons s argv ih => rw [pushedStrings, ih, Image.flags_write]

theorem stringBytes_cons : stringBytes (s :: argv) = round16 (s.length + 1) + stringBytes argv := rfl

theorem stringBytes_mod (argv : List Str) : stringBytes argv % 16 = 0 := by
  induction argv with
  | nil => rfl
  | cons s argv ih =>
    have := round16_mod (s.length + 1)
    rw [stringBytes_cons]
    omega

structure StackPage (L : Layout) (m : Kmem) (t : Radix.Tree fanout ℕ 2) (n : ℕ) (img : Image) (tf : ℕ)
    (A : Multiset ℕ) : Prop where
  uvm : Uvm L m t n img tf A
  two_le : 2 ≤ n
  user : img.flags (n - 1) &&& pteU ≠ 0
  writable : img.flags (n - 1) &&& pteW ≠ 0

theorem StackPage.copyout (h : StackPage L m t n img tf A) {l : List UInt8} (hl : l ≠ [])
    (hlo : (n - 1) * pgSize ≤ a) (hhi : a + l.length ≤ n * pgSize) :
    Ensures (fun _ => False) (copyoutBytes t.label a l) (fun ok m' => ok = true ∧
      StackPage L m' t n (img.write a l) tf A ∧ SameOutside m m' A) m := by
  have htwo := h.two_le
  have hn : n * pgSize = (n - 1) * pgSize + pgSize := by
    rw [← Nat.succ_mul]
    congr 1
    omega
  have hcopy := h.uvm.copyoutBytes_page (show n - 1 < n by omega) (a - (n - 1) * pgSize) hl (by omega)
    h.user h.writable
  rw [show (n - 1) * pgSize + (a - (n - 1) * pgSize) = a by omega] at hcopy
  refine hcopy.mono ?_
  rintro ok m' ⟨hok, hu, hout⟩
  exact ⟨hok, ⟨hu, htwo, h.user, h.writable⟩, hout⟩

/-- The strings are pushed one by one, as long as they fit in the stack page. -/
theorem pushStrings_spec (h : StackPage L m t n img tf A) (hlo : (n - 1) * pgSize ≤ sp)
    (hhi : sp ≤ n * pgSize) (hsp : sp % 16 = 0) (hshort : ∀ s ∈ argv, s.length < pgSize)
    (hfew : ustack.length + argv.length < maxArg) :
    Ensures (fun _ => False) (pushStrings t.label ((n - 1) * pgSize) argv sp ustack) (fun r m' =>
      SameOutside m m' A ∧
        match r with
        | none => sp < (n - 1) * pgSize + stringBytes argv ∧ ∃ img', Uvm L m' t n img' tf A
        | some (sp', us) => (n - 1) * pgSize + stringBytes argv ≤ sp ∧ sp' = sp - stringBytes argv ∧
            us = ustack ++ slots sp argv ∧ StackPage L m' t n (pushedStrings img sp argv) tf A) m := by
  have htwo := h.two_le
  have hle := h.uvm.le
  induction argv generalizing m img sp ustack with
  | nil =>
    have hzero : stringBytes [] = 0 := rfl
    refine ⟨SameOutside.refl m A, ?_, ?_, (List.append_nil _).symm, h⟩
    · omega
    · rw [hzero, Nat.sub_zero]
  | cons s argv ih =>
    have hs := hshort s List.mem_cons_self
    have hpage : pgSize ≤ (n - 1) * pgSize := Nat.le_mul_of_pos_left _ (by omega)
    have hlt : sp < 2 ^ 64 := by
      rw [pgSize_eq] at *
      omega
    have hr := le_round16 (s.length + 1)
    have hr' := round16_mod (s.length + 1)
    rw [List.length_cons] at hfew
    rw [pushStrings]
    rw [sub64_align hsp (by omega) hlt, if_neg (by omega), stringBytes_cons]
    by_cases hbase : sp - round16 (s.length + 1) < (n - 1) * pgSize
    · rw [if_pos hbase]
      exact ⟨SameOutside.refl m A, by omega, img, h.uvm⟩
    rw [if_neg hbase]
    have hlen : (s ++ [0]).length = s.length + 1 := List.length_append
    refine (h.copyout (l := s ++ [0]) (by simp) (not_lt.mp hbase) (by omega)).bind ?_
    rintro ok m₁ ⟨rfl, h₁, hout⟩
    rw [if_pos rfl]
    refine (ih h₁ (by omega) (by omega) (by omega)
      (fun s hs => hshort s (List.mem_cons_of_mem _ hs)) (by
        rw [List.length_append, List.length_singleton]
        omega)).mono ?_
    rintro (_ | ⟨sp', us⟩) m' ⟨hout', hr⟩
    · exact ⟨hout.trans hout', by omega, hr.2⟩
    · obtain ⟨hfit, hsp', hus, h'⟩ := hr
      refine ⟨hout.trans hout', by omega, by omega, ?_, h'⟩
      rw [hus, List.append_assoc, List.singleton_append, slots]

theorem length_words (l : List ℕ) : (l.flatMap (leBytes 8)).length = 8 * l.length := by
  induction l with
  | nil => rfl
  | cons x l ih =>
    rw [List.flatMap_cons, List.length_append, length_leBytes, ih, List.length_cons]
    omega

/-- The strings and the array fit in the stack page, or nothing else has changed. -/
theorem pushArgs_spec (h : StackPage L m t n img tf A) (hshort : ∀ s ∈ argv, s.length < pgSize)
    (hfew : argv.length < maxArg) :
    Ensures (fun _ => False) (pushArgs t.label ((n - 1) * pgSize) argv (n * pgSize)) (fun r m' =>
      SameOutside m m' A ∧
        match r with
        | none => pgSize < argBytes argv ∧ ∃ img', Uvm L m' t n img' tf A
        | some sp => argBytes argv ≤ pgSize ∧ sp = n * pgSize - argBytes argv ∧
            Uvm L m' t n (pushedArgs img (n * pgSize) argv) tf A) m := by
  have htwo := h.two_le
  have hle := h.uvm.le
  have hn : n * pgSize = (n - 1) * pgSize + pgSize := by
    rw [← Nat.succ_mul]
    congr 1
    omega
  have hpage : pgSize ≤ (n - 1) * pgSize := Nat.le_mul_of_pos_left _ (by omega)
  have hmod : n * pgSize % 16 = 0 := by
    rw [pgSize_eq]
    omega
  have hsize : pgSize = 4096 := rfl
  have hptrs : round16 (8 * (argv.length + 1)) ≤ 512 := by
    rw [maxArg_eq] at hfew
    unfold round16
    omega
  unfold pushArgs
  refine (pushStrings_spec h (by omega) le_rfl hmod hshort (by simpa using hfew)).bind ?_
  rintro (_ | ⟨sp, us⟩) m₁ ⟨hout, hr⟩
  · obtain ⟨hbig, hu⟩ := hr
    refine ⟨hout, ?_, hu⟩
    unfold argBytes
    omega
  obtain ⟨hfit, rfl, rfl, h₁⟩ := hr
  have hs := stringBytes_mod argv
  have hr := le_round16 (8 * (argv.length + 1))
  have hwords : ((slots (n * pgSize) argv ++ [0]).flatMap (leBytes 8)).length =
      8 * (argv.length + 1) := by
    rw [length_words, List.length_append, length_slots]
    rfl
  dsimp only
  rw [List.nil_append, length_slots, Nat.mul_comm (argv.length + 1) 8,
    sub64_align (by omega) (by rw [pgSize_eq] at *; omega) (by rw [pgSize_eq] at *; omega), Nat.sub_sub]
  by_cases hbase : n * pgSize - (stringBytes argv + round16 (8 * (argv.length + 1))) < (n - 1) * pgSize
  · rw [if_pos hbase]
    refine ⟨hout, ?_, _, h₁.uvm⟩
    unfold argBytes
    omega
  rw [if_neg hbase]
  refine (h₁.copyout (l := (slots (n * pgSize) argv ++ [0]).flatMap (leBytes 8)) ?_ (not_lt.mp hbase)
    ?_).bind ?_
  · intro h0
    rw [h0, List.length_nil] at hwords
    omega
  · rw [hwords]
    omega
  · rintro ok m' ⟨rfl, h', hout'⟩
    refine ⟨hout.trans hout', ?_, rfl, h'.uvm⟩
    unfold argBytes
    omega

end Xv6.Exec
