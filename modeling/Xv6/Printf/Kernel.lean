import Xv6.Printf.Format

/-! `printf` of `kernel/printf.c`. A 32-bit argument reaches `printint` as a `long long`, so its sign goes
with it also where the conversion is unsigned; a 64-bit one can have more digits than `buf` has cells. -/
namespace Xv6.Printf

open Lib

/-- `va_arg(ap, int)` or `va_arg(ap, uint64)`, as the `long long` that `printint` takes. -/
def Conv.kernelArg (conv : Conv) (slot : BitVec 64) : BitVec 64 :=
  match conv.length with
  | .int => (slot.setWidth 32).signExtend 64
  | _ => slot

def kernelInt (conv : Conv) (slot : BitVec 64) : Printed :=
  printint digits (conv.kernelArg slot) conv.base conv.sign

/-- What `printf` sends to the console, a piece for each call that sends something. -/
def printf (text : BitVec 64 → Str) : Str → VaList → List Printed
  | [], _ => []
  | cx :: fmt, ap =>
    if cx = 0 then []
    else if cx ≠ 37 then plain [cx] :: printf text fmt ap
    else
      let c0 := fmt.headD 0
      let c := if c0 ≠ 0 then lookahead fmt.tail else (0, 0)
      match directive c0 c.1 c.2 with
      | some dir =>
        dir.print digits kernelInt text (ap 0) ::
          printf text (fmt.drop (1 + dir.skip)) (dir.next ap)
      | none =>
        if c0 = 0 then []
        else plain [37, c0] :: printf text (fmt.drop 1) ap
termination_by fmt => fmt.length
decreasing_by all_goals simp only [List.length_drop, List.length_cons]; omega

theorem printf_eq (text : BitVec 64 → Str) (fmt : Str) (ap : VaList) :
    printf text fmt ap = (items fmt ap).map (Item.print digits kernelInt text) := by
  fun_induction items fmt ap with
  | case1 => simp [printf]
  | case2 cx ap h =>
    rcases h with h | h <;> subst h <;> simp [printf, directive_zero]
  | case3 cx ap h =>
    rw [not_or] at h
    simp [printf, h.1, h.2, Item.print]
  | case4 => simp [printf]
  | case5 cx c0 fmt ap h0 h ih =>
    rw [printf, if_neg h0, if_pos h, ih]
    rfl
  | case6 => simp_all [printf, directive_zero]
  | case7 cx c0 fmt ap h0 h hc0 dir ih =>
    rw [printf, if_neg h0, if_neg h]
    simp only [List.headD_cons, List.tail_cons, ne_eq, hc0, not_false_eq_true, if_true, if_false]
    rw [List.map_cons, ← ih]
    cases hd : directive c0 (lookahead fmt).1 (lookahead fmt).2 with
    | none =>
      have hdir : dir = .unknown c0 := by simp only [dir, hd, Option.getD_none]
      rw [hdir]
      rfl
    | some dir' =>
      have hdir : dir = dir' := by simp only [dir, hd, Option.getD_some]
      rw [hdir]
      simp only [Nat.add_comm 1, List.drop_succ_cons]
      rfl

/-- An argument that the kernel prints correctly and within `buf`. -/
def Conv.Fits (slot : BitVec 64) : Conv → Prop
  | ⟨.d, .int⟩ => True
  | ⟨_, .int⟩ => (slot.setWidth 32).toNat < 2 ^ 31
  | ⟨.d, _⟩ => -(10 ^ 15) < slot.toInt ∧ slot.toInt < 10 ^ 16
  | ⟨.u, _⟩ => slot.toNat < 10 ^ 16
  | ⟨.x, _⟩ => True

theorem digits_inj : ∀ c < 16, ∀ d < 16, digits c = digits d → c = d := by decide

theorem Base.digits_inj (base : Base) : ∀ c < base.val, ∀ d < base.val, digits c = digits d → c = d := by
  have hle : base.val ≤ 16 := by cases base <;> decide
  intro c hc d hd
  exact Printf.digits_inj c (by omega) d (by omega)

theorem signExtend_toNat_eq_iff (n : BitVec 32) :
    (n.signExtend 64).toNat = n.toNat ↔ n.toNat < 2 ^ 31 := by
  have hlt := n.isLt
  rw [BitVec.toNat_signExtend, BitVec.toNat_setWidth, Nat.mod_eq_of_lt (by omega),
    BitVec.msb_eq_decide]
  by_cases h : 2 ^ (32 - 1) ≤ n.toNat
  · simp only [h, decide_true, if_true]
    omega
  · simp only [h, decide_false, Bool.false_eq_true, if_false]
    omega

theorem cells_le {base : Base} {v k : ℕ} (hk : 0 < k) (hv : v < base.val ^ k) (hk' : k ≤ 16) :
    (numeral digits base.val v).length ≤ 16 :=
  le_trans ((length_numeral_le_iff digits v base.one_lt hk).mpr hv) hk'

theorem kernelInt_signed_int (slot : BitVec 64) :
    (kernelInt ⟨.d, .int⟩ slot).chars = Conv.numeral digits ⟨.d, .int⟩ slot ∧
      (kernelInt ⟨.d, .int⟩ slot).cells ≤ 16 := by
  have hval : ((slot.setWidth 32).signExtend 64).toInt = (slot.setWidth 32).toInt :=
    BitVec.toInt_signExtend_of_le (by decide)
  have hlo := (slot.setWidth 32).le_toInt
  have hhi := (slot.setWidth 32).toInt_lt
  have hlen := length_signedNumeral_le_iff digits 45 (slot.setWidth 32).toInt Base.dec.one_lt
    (Nat.succ_pos 14)
  rw [kernelInt, printint_eq]
  simp only [Conv.kernelArg, Conv.numeral, wordNumeral, Conv.sign, Conv.base, if_true, hval,
    true_and]
  apply hlen.mpr
  simp only [Base.val]
  constructor <;> norm_num at hlo hhi ⊢ <;> omega

theorem kernelInt_unsigned_int (kind : Kind) (slot : BitVec 64) (hkind : Conv.sign ⟨kind, .int⟩ = false) :
    (kernelInt ⟨kind, .int⟩ slot).chars = Conv.numeral digits ⟨kind, .int⟩ slot ∧
      (kernelInt ⟨kind, .int⟩ slot).cells ≤ 16 ↔ (slot.setWidth 32).toNat < 2 ^ 31 := by
  rw [kernelInt, printint_eq]
  simp only [Conv.kernelArg, Conv.numeral, wordNumeral, hkind, Bool.false_eq_true, if_false]
  rw [numeral_inj (Base.one_lt _) (Base.digits_inj _), signExtend_toNat_eq_iff]
  apply and_iff_left_of_imp
  intro hlt
  rw [(signExtend_toNat_eq_iff _).mpr hlt]
  apply cells_le (Nat.succ_pos 9) _ (by decide)
  apply lt_of_lt_of_le hlt
  cases kind <;> norm_num [Conv.base, Base.val]

theorem kernelInt_long (kind : Kind) (len : Length) (slot : BitVec 64) (hlen : len ≠ .int) :
    (kernelInt ⟨kind, len⟩ slot).chars = Conv.numeral digits ⟨kind, len⟩ slot ∧
      (kernelInt ⟨kind, len⟩ slot).cells =
        (wordNumeral digits slot (Conv.base ⟨kind, len⟩) (Conv.sign ⟨kind, len⟩)).length := by
  rw [kernelInt, printint_eq]
  cases len with
  | int => exact absurd rfl hlen
  | l => exact ⟨rfl, rfl⟩
  | ll => exact ⟨rfl, rfl⟩

theorem wordNumeral_long_le_iff (kind : Kind) (len : Length) (slot : BitVec 64) (hlen : len ≠ .int) :
    (wordNumeral digits slot (Conv.base ⟨kind, len⟩) (Conv.sign ⟨kind, len⟩)).length ≤ 16 ↔
      Conv.Fits slot ⟨kind, len⟩ := by
  have hs := length_signedNumeral_le_iff digits 45 slot.toInt Base.dec.one_lt (Nat.succ_pos 14)
  have hu := length_numeral_le_iff digits slot.toNat Base.dec.one_lt (Nat.succ_pos 15)
  have hx := length_numeral_le_iff digits slot.toNat Base.hex.one_lt (Nat.succ_pos 15)
  have hlt := slot.isLt
  cases kind with
  | d => cases len <;> simp_all [wordNumeral, Conv.base, Conv.sign, Conv.Fits, Base.val]
  | u => cases len <;> simp_all [wordNumeral, Conv.base, Conv.sign, Conv.Fits, Base.val]
  | x => cases len <;> simp_all [wordNumeral, Conv.base, Conv.sign, Conv.Fits, Base.val]

theorem kernelInt_correct_iff (conv : Conv) (slot : BitVec 64) :
    (kernelInt conv slot).chars = conv.numeral digits slot ∧ (kernelInt conv slot).cells ≤ 16 ↔
      conv.Fits slot := by
  obtain ⟨kind, len⟩ := conv
  by_cases hlen : len = .int
  · subst hlen
    cases kind with
    | d => exact iff_of_true (kernelInt_signed_int slot) trivial
    | u => exact kernelInt_unsigned_int .u slot rfl
    | x => exact kernelInt_unsigned_int .x slot rfl
  · rw [(kernelInt_long kind len slot hlen).1, (kernelInt_long kind len slot hlen).2,
      wordNumeral_long_le_iff kind len slot hlen]
    exact and_iff_right rfl

theorem Item.kernel_correct_iff (text : BitVec 64 → Str) (item : Item) :
    (item.print digits kernelInt text).chars = item.expected digits text ∧
        (item.print digits kernelInt text).cells ≤ 16 ↔
      ∀ conv slot, item = .directive (.int conv) slot → conv.Fits slot := by
  cases item with
  | char => simp [Item.print, Item.expected, plain]
  | directive dir slot =>
    cases dir with
    | int conv =>
      rw [forall_eq_int_iff]
      exact kernelInt_correct_iff conv slot
    | _ => simp [Item.print, Item.expected, Directive.print, plain]

/-- `printf` sends the numeral of every integer and stays within `buf` exactly when every argument fits
its conversion. -/
theorem printf_correct_iff (text : BitVec 64 → Str) (fmt : Str) (ap : VaList) :
    ((printf text fmt ap).map Printed.chars = (items fmt ap).map (Item.expected digits text) ∧
        ∀ piece ∈ printf text fmt ap, piece.cells ≤ 16) ↔
      ∀ conv slot, Item.directive (.int conv) slot ∈ items fmt ap → conv.Fits slot := by
  rw [printf_eq, List.map_map, List.map_inj_left, List.forall_mem_map, ← forall₂_and,
    ← forall_items_iff]
  exact forall₂_congr fun item _ => Item.kernel_correct_iff text item

/-- `printf("%x", 0x80000000)` prints a number of 64 bits, and `printf("%lu", 10000000000000000)` writes
`buf[16]`. -/
theorem printf_sign_and_overflow :
    (printf (fun _ => []) (lit "%x") (fun _ => 0x80000000)).map Printed.chars =
        [lit "ffffffff80000000"] ∧
      (items (lit "%x") (fun _ => 0x80000000)).map (Item.expected digits fun _ => []) =
        [lit "80000000"] ∧
      (printf (fun _ => []) (lit "%lu") (fun _ => 10000000000000000)).map Printed.cells = [17] := by
  rw [printf_eq, printf_eq, items_x, items_lu]
  simp [Item.expected, Item.print, Directive.print, plain, kernelInt, printint_eq, Conv.numeral,
    wordNumeral, numeral, Conv.sign, Conv.base, Conv.kernelArg, Base.val]
  decide

end Xv6.Printf
