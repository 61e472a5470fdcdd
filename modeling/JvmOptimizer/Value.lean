import JvmOptimizer.Binary.Decimal

/-!
# Kinds and values

The machine computes with four numeric kinds; a local variable may also hold a
reference. A `Value` is a number known at optimization time. Floating-point
values are bit patterns, so equality of values is identity: a NaN equals
itself, and the two zeros differ.
-/

namespace JvmOptimizer

/-- The numeric types of the machine. -/
inductive Kind
  | int
  | long
  | float
  | double
  deriving DecidableEq, Repr

namespace Kind

/-- All kinds, in the order in which opcode families list them. -/
def all : List Kind := [.int, .long, .float, .double]

/-- Stack or local slots that a value of this kind takes. -/
def slots : Kind → Nat
  | int => 1
  | long => 2
  | float => 1
  | double => 2

/-- Place of the kind in an opcode family. -/
def offset : Kind → Nat
  | int => 0
  | long => 1
  | float => 2
  | double => 3

/-- The letter that mnemonics of this kind start with. -/
def letter : Kind → String
  | int => "i"
  | long => "l"
  | float => "f"
  | double => "d"

end Kind

/-- The type of a local variable access. -/
inductive LocalKind
  | number (kind : Kind)
  | reference
  deriving DecidableEq, Repr

namespace LocalKind

/-- Slots that a variable of this kind takes. -/
def slots : LocalKind → Nat
  | number kind => kind.slots
  | reference => 1

/-- Place of the kind in an opcode family. -/
def offset : LocalKind → Nat
  | number kind => kind.offset
  | reference => 4

/-- The kind at a place of an opcode family; the last one is `reference`. -/
def ofOffset (n : Nat) : LocalKind :=
  match Kind.all[n]? with
  | some kind => number kind
  | none => reference

/-- The letter that mnemonics of this kind start with. -/
def letter : LocalKind → String
  | number kind => kind.letter
  | reference => "a"

end LocalKind

/-- A number with its kind. -/
inductive Value
  | int (value : Int32)
  | long (value : Int64)
  | float (bits : UInt32)
  | double (bits : UInt64)
  deriving DecidableEq, Repr

namespace Value

/-- The kind of a value. -/
def kind : Value → Kind
  | int _ => .int
  | long _ => .long
  | float _ => .float
  | double _ => .double

/-- Slots that a value takes. -/
def slots (v : Value) : Nat := v.kind.slots

theorem slots_eq (v : Value) : v.slots = 1 ∨ v.slots = 2 := by
  cases v <;> simp [slots, kind, Kind.slots]

/-- Floating-point constants are positional from `10 ^ -4` to below `10 ^ 16`
and have at least one digit behind the point. -/
def decimalStyle : Binary.DecimalStyle where
  positionalFrom := -4
  exponentFrom := 16
  nan := "NaN"
  infinity := "inf"

/-- The text of a value; a letter marks every kind but int. -/
def text : Value → String
  | int v => toString v.toInt
  | long v => toString v.toInt ++ "L"
  | float bits => decimalStyle.text Binary.single bits.toNat ++ "f"
  | double bits => decimalStyle.text Binary.double bits.toNat ++ "d"

end Value

end JvmOptimizer
