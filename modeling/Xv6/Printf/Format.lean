import Xv6.Printf.Printint

/-! The format strings that `printf` of the kernel and `vprintf` of the user library read. -/
namespace Xv6.Printf

inductive Kind
  | d
  | u
  | x

inductive Length
  | int
  | l
  | ll

/-- A conversion of an integer: `%d`, `%lu`, `%llx` and so on. -/
structure Conv where
  kind : Kind
  length : Length

inductive Directive
  | int (conv : Conv)
  | ptr
  | str
  | percent
  | unknown (c : UInt8)

/-- The arguments that `va_arg` has still to fetch, each in a slot of 64 bits. -/
abbrev VaList := ℕ → BitVec 64

def Conv.base (conv : Conv) : Base :=
  match conv.kind with
  | .x => .hex
  | _ => .dec

def Conv.sign (conv : Conv) : Bool :=
  match conv.kind with
  | .d => true
  | _ => false

/-- How far `i` goes past the character after the percent sign. -/
def Directive.skip : Directive → ℕ
  | .int ⟨_, .l⟩ => 1
  | .int ⟨_, .ll⟩ => 2
  | _ => 0

def Directive.next (ap : VaList) : Directive → VaList
  | .percent => ap
  | .unknown _ => ap
  | _ => fun k => ap (k + 1)

/-- The tests that both functions make, in their order. -/
def directive (c0 c1 c2 : UInt8) : Option Directive :=
  if c0 = 100 then some (.int ⟨.d, .int⟩)
  else if c0 = 108 ∧ c1 = 100 then some (.int ⟨.d, .l⟩)
  else if c0 = 108 ∧ c1 = 108 ∧ c2 = 100 then some (.int ⟨.d, .ll⟩)
  else if c0 = 117 then some (.int ⟨.u, .int⟩)
  else if c0 = 108 ∧ c1 = 117 then some (.int ⟨.u, .l⟩)
  else if c0 = 108 ∧ c1 = 108 ∧ c2 = 117 then some (.int ⟨.u, .ll⟩)
  else if c0 = 120 then some (.int ⟨.x, .int⟩)
  else if c0 = 108 ∧ c1 = 120 then some (.int ⟨.x, .l⟩)
  else if c0 = 108 ∧ c1 = 108 ∧ c2 = 120 then some (.int ⟨.x, .ll⟩)
  else if c0 = 112 then some .ptr
  else if c0 = 115 then some .str
  else if c0 = 37 then some .percent
  else none

/-- `c1` and `c2`: the two characters at `fmt`, where nothing is read after a NUL. -/
def lookahead (fmt : Str) : UInt8 × UInt8 :=
  (fmt.headD 0, if fmt.headD 0 ≠ 0 then fmt.tail.headD 0 else 0)

theorem directive_zero (c1 c2 : UInt8) : directive 0 c1 c2 = none := by
  simp [directive]

def printptr (digits : ℕ → UInt8) (x : BitVec 64) : Str :=
  lit "0x" ++ (List.range 16).map fun i => digits ((x <<< (4 * i)) >>> 60).toNat

def plain (s : Str) : Printed := ⟨s, 0⟩

/-- One directive, with the version's own digits and its own call of `printint`. The strings in memory
are `text`. -/
def Directive.print (digits : ℕ → UInt8) (int : Conv → BitVec 64 → Printed)
    (text : BitVec 64 → Str) (slot : BitVec 64) : Directive → Printed
  | .int conv => int conv slot
  | .ptr => plain (printptr digits slot)
  | .str => plain (if slot = 0 then lit "(null)" else text slot)
  | .percent => plain [37]
  | .unknown c => plain [37, c]

/-- What a format string asks for: a character, or a directive with the slot it would fetch. -/
inductive Item
  | char (c : UInt8)
  | directive (dir : Directive) (slot : BitVec 64)

/-- The items of a format string. A percent sign at its end asks for nothing. -/
def items : Str → VaList → List Item
  | [], _ => []
  | [c], _ => if c = 0 ∨ c = 37 then [] else [.char c]
  | c :: c0 :: fmt, ap =>
    if c = 0 then []
    else if c ≠ 37 then .char c :: items (c0 :: fmt) ap
    else if c0 = 0 then []
    else
      let dir := (directive c0 (lookahead fmt).1 (lookahead fmt).2).getD (.unknown c0)
      .directive dir (ap 0) :: items (fmt.drop dir.skip) (dir.next ap)
termination_by fmt => fmt.length
decreasing_by
  · simp
  · simp only [List.length_drop, List.length_cons]
    omega

def Item.print (digits : ℕ → UInt8) (int : Conv → BitVec 64 → Printed)
    (text : BitVec 64 → Str) : Item → Printed
  | .char c => plain [c]
  | .directive dir slot => dir.print digits int text slot

/-- The numeral of an argument of the conversion's own width and sign. -/
def Conv.numeral (digits : ℕ → UInt8) (conv : Conv) (slot : BitVec 64) : Str :=
  match conv.length with
  | .int => wordNumeral digits (slot.setWidth 32) conv.base conv.sign
  | _ => wordNumeral digits slot conv.base conv.sign

def Item.expected (digits : ℕ → UInt8) (text : BitVec 64 → Str) (item : Item) : Str :=
  (item.print digits (fun conv slot => plain (conv.numeral digits slot)) text).chars

theorem forall_items_iff {P : Conv → BitVec 64 → Prop} {l : List Item} :
    (∀ item ∈ l, ∀ conv slot, item = .directive (.int conv) slot → P conv slot) ↔
      ∀ conv slot, Item.directive (.int conv) slot ∈ l → P conv slot := by
  constructor
  · intro h conv slot hmem
    exact h _ hmem conv slot rfl
  · intro h item hmem conv slot heq
    exact h conv slot (heq ▸ hmem)

theorem forall_eq_int_iff {P : Conv → BitVec 64 → Prop} {conv : Conv} {slot : BitVec 64} :
    (∀ conv' slot', Item.directive (.int conv) slot = .directive (.int conv') slot' → P conv' slot') ↔
      P conv slot := by
  constructor
  · intro h
    exact h conv slot rfl
  · intro h conv' slot' heq
    cases heq
    exact h

theorem items_x (ap : VaList) : items (lit "%x") ap = [.directive (.int ⟨.x, .int⟩) (ap 0)] := by
  have hx : lit "%x" = [37, 120] := by decide
  simp [hx, items, directive, lookahead, Directive.skip]

theorem items_lu (ap : VaList) : items (lit "%lu") ap = [.directive (.int ⟨.u, .l⟩) (ap 0)] := by
  have hlu : lit "%lu" = [37, 108, 117] := by decide
  simp [hlu, items, directive, lookahead, Directive.skip]

end Xv6.Printf
