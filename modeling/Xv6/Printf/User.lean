import Xv6.Printf.Kernel

/-! `vprintf` of `user/printf.c`, which has the conversions of the kernel but an `int` for every number. -/
namespace Xv6.Printf

open Lib

/-- `printint(fd, va_arg(ap, ...), ...)`: both a fetched `int` and a fetched `uint64` become an `int`. -/
def userInt (conv : Conv) (slot : BitVec 64) : Printed :=
  printint userDigits (slot.setWidth 32) conv.base conv.sign

/-- What `vprintf` writes; `state` is set after a percent sign. -/
def vprintf (text : BitVec 64 → Str) : Bool → Str → VaList → List Printed
  | _, [], _ => []
  | state, c0 :: fmt, ap =>
    if c0 = 0 then []
    else if state = false then
      if c0 = 37 then vprintf text true fmt ap
      else plain [c0] :: vprintf text false fmt ap
    else
      match directive c0 (lookahead fmt).1 (lookahead fmt).2 with
      | some dir =>
        dir.print userDigits userInt text (ap 0) ::
          vprintf text false (fmt.drop dir.skip) (dir.next ap)
      | none => plain [37, c0] :: vprintf text false fmt ap
termination_by _ fmt => fmt.length
decreasing_by all_goals simp only [List.length_drop, List.length_cons]; omega

theorem vprintf_eq (text : BitVec 64 → Str) (fmt : Str) (ap : VaList) :
    vprintf text false fmt ap = (items fmt ap).map (Item.print userDigits userInt text) := by
  fun_induction items fmt ap with
  | case1 => simp [vprintf]
  | case2 cx ap h =>
    rcases h with h | h <;> subst h <;> simp [vprintf]
  | case3 cx ap h =>
    rw [not_or] at h
    simp [vprintf, h.1, h.2, Item.print]
  | case4 => simp [vprintf]
  | case5 cx c0 fmt ap h0 h ih =>
    rw [vprintf, if_neg h0, if_pos rfl, if_neg h, ih]
    rfl
  | case6 => simp_all [vprintf]
  | case7 cx c0 fmt ap h0 h hc0 dir ih =>
    rw [vprintf, if_neg h0, if_pos rfl, if_pos (not_not.mp h), vprintf, if_neg hc0,
      if_neg (by decide), List.map_cons, ← ih]
    cases hd : directive c0 (lookahead fmt).1 (lookahead fmt).2 with
    | none =>
      have hdir : dir = .unknown c0 := by simp only [dir, hd, Option.getD_none]
      rw [hdir]
      rfl
    | some dir' =>
      have hdir : dir = dir' := by simp only [dir, hd, Option.getD_some]
      rw [hdir]
      rfl

def foldHex (c : UInt8) : UInt8 := if 65 ≤ c ∧ c ≤ 70 then c + 32 else c

theorem getD_of_length_le {s : Str} {d : ℕ} (h : s.length ≤ d) : s.getD d 0 = 0 := by
  rw [List.getD_eq_getElem?_getD, List.getElem?_eq_none h]
  rfl

theorem foldHex_userDigits (d : ℕ) : foldHex (userDigits d) = digits d := by
  by_cases hd : d < 16
  · interval_cases d <;> decide
  · have hout : userDigits d = 0 ∧ digits d = 0 := by
      constructor <;> exact getD_of_length_le (by simp [lit]; omega)
    rw [hout.1, hout.2]
    decide

theorem foldHex_digits (d : ℕ) : foldHex (digits d) = digits d := by
  by_cases hd : d < 16
  · interval_cases d <;> decide
  · have hout : digits d = 0 := getD_of_length_le (by simp [lit]; omega)
    rw [hout]
    decide

theorem map_foldHex_wordNumeral {w : ℕ} {table : ℕ → UInt8} (h : ∀ d, foldHex (table d) = digits d)
    (xx : BitVec w) (base : Base) (sign : Bool) :
    (wordNumeral table xx base sign).map foldHex = wordNumeral digits xx base sign := by
  have hminus : foldHex 45 = 45 := by decide
  unfold wordNumeral signedNumeral
  split_ifs <;> simp only [List.map_cons, map_numeral, h, hminus]

theorem map_foldHex_printptr (slot : BitVec 64) :
    (printptr userDigits slot).map foldHex = (printptr digits slot).map foldHex := by
  simp only [printptr, List.map_append, List.map_map, Function.comp_def, foldHex_userDigits,
    foldHex_digits]

/-- An argument that the user library prints correctly and as the kernel does. -/
def Conv.UserFits (slot : BitVec 64) : Conv → Prop
  | ⟨.d, .int⟩ => True
  | ⟨_, .int⟩ => (slot.setWidth 32).toNat < 2 ^ 31
  | ⟨.d, _⟩ => -(2 ^ 31) ≤ slot.toInt ∧ slot.toInt < 2 ^ 31
  | ⟨_, _⟩ => slot.toNat < 2 ^ 32

theorem Conv.UserFits.fits {conv : Conv} {slot : BitVec 64} (h : conv.UserFits slot) :
    conv.Fits slot := by
  obtain ⟨kind, len⟩ := conv
  cases kind <;> cases len <;> simp only [Conv.UserFits, Conv.Fits] at h ⊢ <;> omega

theorem Base.userDigits_inj (base : Base) :
    ∀ c < base.val, ∀ d < base.val, userDigits c = userDigits d → c = d := by
  intro c hc d hd h
  apply base.digits_inj c hc d hd
  rw [← foldHex_userDigits, ← foldHex_userDigits, h]

theorem userDigits_ne_minus : ∀ d < 10, userDigits d ≠ 45 := by decide

theorem toNat_setWidth_eq_iff (slot : BitVec 64) :
    (slot.setWidth 32).toNat = slot.toNat ↔ slot.toNat < 2 ^ 32 := by
  rw [BitVec.toNat_setWidth]
  omega

theorem toInt_setWidth_eq_iff (slot : BitVec 64) :
    (slot.setWidth 32).toInt = slot.toInt ↔ -(2 ^ 31) ≤ slot.toInt ∧ slot.toInt < 2 ^ 31 := by
  have hlt := slot.isLt
  rw [BitVec.toInt_eq_toNat_cond, BitVec.toInt_eq_toNat_cond, BitVec.toNat_setWidth]
  split_ifs <;> omega

theorem userInt_long_iff (kind : Kind) (len : Length) (slot : BitVec 64) (hlen : len ≠ .int) :
    (userInt ⟨kind, len⟩ slot).chars = Conv.numeral userDigits ⟨kind, len⟩ slot ↔
      Conv.UserFits slot ⟨kind, len⟩ := by
  have hs : signedNumeral userDigits 45 10 (slot.setWidth 32).toInt =
      signedNumeral userDigits 45 10 slot.toInt ↔ _ :=
    (signedNumeral_inj (by decide) (Base.dec.userDigits_inj) userDigits_ne_minus).trans
      (toInt_setWidth_eq_iff slot)
  have hu := fun base : Base =>
    (numeral_inj base.one_lt base.userDigits_inj).trans (toNat_setWidth_eq_iff slot)
  rw [userInt, printint_eq]
  cases len with
  | int => exact absurd rfl hlen
  | l =>
    cases kind with
    | d => exact hs
    | u => exact hu .dec
    | x => exact hu .hex
  | ll =>
    cases kind with
    | d => exact hs
    | u => exact hu .dec
    | x => exact hu .hex

/-- A number agrees with the kernel's when both print the same word, up to the case of digits. -/
theorem userInt_correct_iff (conv : Conv) (slot : BitVec 64) :
    (userInt conv slot).chars = conv.numeral userDigits slot ∧
        (userInt conv slot).chars.map foldHex = (kernelInt conv slot).chars.map foldHex ↔
      conv.UserFits slot := by
  have hagree : (userInt conv slot).chars = conv.numeral userDigits slot →
      (kernelInt conv slot).chars = conv.numeral digits slot →
      (userInt conv slot).chars.map foldHex = (kernelInt conv slot).chars.map foldHex := by
    intro hu hk
    rw [hu, hk]
    unfold Conv.numeral
    split <;> rw [map_foldHex_wordNumeral foldHex_userDigits, map_foldHex_wordNumeral foldHex_digits]
  have hkernel : conv.UserFits slot → (kernelInt conv slot).chars = conv.numeral digits slot :=
    fun h => ((kernelInt_correct_iff conv slot).mpr h.fits).1
  obtain ⟨kind, len⟩ := conv
  by_cases hlen : len = .int
  · subst hlen
    have huser : (userInt ⟨kind, .int⟩ slot).chars = Conv.numeral userDigits ⟨kind, .int⟩ slot := by
      rw [userInt, printint_eq]
      rfl
    constructor
    · rintro ⟨-, h⟩
      rw [huser] at h
      cases kind with
      | d => trivial
      | _ =>
        rw [kernelInt, printint_eq] at h
        simp only [Conv.numeral, Conv.kernelArg] at h
        rw [map_foldHex_wordNumeral foldHex_userDigits, map_foldHex_wordNumeral foldHex_digits] at h
        simp only [wordNumeral, Conv.sign, Bool.false_eq_true, if_false] at h
        have hval := (numeral_inj (Base.one_lt _) (Base.digits_inj _)).mp h
        exact (signExtend_toNat_eq_iff _).mp hval.symm
    · intro h
      exact ⟨huser, hagree huser (hkernel h)⟩
  · constructor
    · rintro ⟨h, -⟩
      exact (userInt_long_iff kind len slot hlen).mp h
    · intro h
      have huser := (userInt_long_iff kind len slot hlen).mpr h
      exact ⟨huser, hagree huser (hkernel h)⟩

theorem Item.user_correct_iff (text : BitVec 64 → Str) (item : Item) :
    (item.print userDigits userInt text).chars = item.expected userDigits text ∧
        (item.print userDigits userInt text).chars.map foldHex =
          (item.print digits kernelInt text).chars.map foldHex ↔
      ∀ conv slot, item = .directive (.int conv) slot → conv.UserFits slot := by
  cases item with
  | char => simp [Item.print, Item.expected, plain]
  | directive dir slot =>
    cases dir with
    | int conv =>
      rw [forall_eq_int_iff]
      exact userInt_correct_iff conv slot
    | ptr =>
      simp [Item.print, Item.expected, Directive.print, plain, map_foldHex_printptr]
    | _ => simp [Item.print, Item.expected, Directive.print, plain]

/-- `vprintf` writes the numeral of every integer, and what the kernel's `printf` sends up to the case of
hexadecimal digits, exactly when every argument fits its conversion. -/
theorem vprintf_correct_iff (text : BitVec 64 → Str) (fmt : Str) (ap : VaList) :
    ((vprintf text false fmt ap).map Printed.chars =
          (items fmt ap).map (Item.expected userDigits text) ∧
        (vprintf text false fmt ap).map (fun piece => piece.chars.map foldHex) =
          (printf text fmt ap).map (fun piece => piece.chars.map foldHex)) ↔
      ∀ conv slot, Item.directive (.int conv) slot ∈ items fmt ap → conv.UserFits slot := by
  rw [vprintf_eq, printf_eq, List.map_map, List.map_map, List.map_map, List.map_inj_left,
    List.map_inj_left, ← forall₂_and, ← forall_items_iff]
  exact forall₂_congr fun item _ => Item.user_correct_iff text item

/-- `printf("%lu", 4294967296)` prints 0. -/
theorem vprintf_drops_high_half :
    (vprintf (fun _ => []) false (lit "%lu") (fun _ => 4294967296)).map Printed.chars = [lit "0"] ∧
      (items (lit "%lu") (fun _ => 4294967296)).map (Item.expected userDigits fun _ => []) =
        [lit "4294967296"] ∧
      (printf (fun _ => []) (lit "%lu") (fun _ => 4294967296)).map Printed.chars =
        [lit "4294967296"] := by
  rw [vprintf_eq, printf_eq, items_lu]
  simp [Item.expected, Item.print, Directive.print, plain, userInt, kernelInt, printint_eq,
    Conv.numeral, wordNumeral, numeral, Conv.sign, Conv.base, Conv.kernelArg, Base.val]
  decide

end Xv6.Printf
