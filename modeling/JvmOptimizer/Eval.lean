import JvmOptimizer.Binary.Arithmetic
import JvmOptimizer.Instruction.Basic

/-!
# Evaluation

What the machine computes, done ahead of time. Integers wrap at their width and
divide toward zero, shift distances count modulo the width, and a conversion
from floating point to an integer takes the nearest value in range toward zero,
with zero for a NaN.

Operands are listed from the deepest stack value up.
-/

namespace JvmOptimizer

/-- Why an operation has no value. -/
inductive EvalError
  /-- The machine would throw; `op` is a division or a remainder. -/
  | divisionByZero (op : ArithOp)
  /-- The operands are not of the operation's kinds or number. -/
  | typeMismatch
  deriving DecidableEq

/-- The text of an evaluation error. -/
def EvalError.message : EvalError → String
  | divisionByZero .rem => "remainder by zero"
  | divisionByZero _ => "division by zero"
  | typeMismatch => "operand types do not match the instruction"

namespace Eval

/-! ### Arithmetic -/

/-- An operation on two ints. -/
def intOp (op : ArithOp) (a b : Int32) : Except EvalError Int32 :=
  let distance := b &&& 31
  match op with
  | .add => .ok (a + b)
  | .sub => .ok (a - b)
  | .mul => .ok (a * b)
  | .div => if b = 0 then .error (.divisionByZero .div) else .ok (a / b)
  | .rem => if b = 0 then .error (.divisionByZero .rem) else .ok (a % b)
  | .shl => .ok (a <<< distance)
  | .shr => .ok (a >>> distance)
  | .ushr => .ok (a.toUInt32 >>> distance.toUInt32).toInt32
  | .and => .ok (a &&& b)
  | .or => .ok (a ||| b)
  | .xor => .ok (a ^^^ b)
  | .neg => .error .typeMismatch

/-- An operation on two longs. -/
def longOp (op : ArithOp) (a b : Int64) : Except EvalError Int64 :=
  match op with
  | .add => .ok (a + b)
  | .sub => .ok (a - b)
  | .mul => .ok (a * b)
  | .div => if b = 0 then .error (.divisionByZero .div) else .ok (a / b)
  | .rem => if b = 0 then .error (.divisionByZero .rem) else .ok (a % b)
  | .and => .ok (a &&& b)
  | .or => .ok (a ||| b)
  | .xor => .ok (a ^^^ b)
  | _ => .error .typeMismatch

/-- A shift of a long by an int. -/
def longShift (op : ArithOp) (a : Int64) (b : Int32) : Except EvalError Int64 :=
  let distance := b.toInt64 &&& 63
  match op with
  | .shl => .ok (a <<< distance)
  | .shr => .ok (a >>> distance)
  | .ushr => .ok (a.toUInt64 >>> distance.toUInt64).toInt64
  | _ => .error .typeMismatch

/-- An operation on two floating-point patterns. -/
def floatOp (f : Binary.Format) (op : ArithOp) (a b : Nat) : Except EvalError Nat :=
  match op with
  | .add => .ok (f.add a b)
  | .sub => .ok (f.sub a b)
  | .mul => .ok (f.mul a b)
  | .div => .ok (f.div a b)
  | .rem => .ok (f.rem a b)
  | _ => .error .typeMismatch

/-- Negation. -/
def negate : Kind → Value → Except EvalError Value
  | .int, .int a => .ok (.int (-a))
  | .long, .long a => .ok (.long (-a))
  | .float, .float a => .ok (.float (UInt32.ofNat (Binary.single.negate a.toNat)))
  | .double, .double a => .ok (.double (UInt64.ofNat (Binary.double.negate a.toNat)))
  | _, _ => .error .typeMismatch

/-- An operation on two values. Only the distance of a long shift differs in
kind from the operation. -/
def binary (op : ArithOp) : Kind → Value → Value → Except EvalError Value
  | .int, .int a, .int b => .int <$> intOp op a b
  | .long, .long a, .long b => .long <$> longOp op a b
  | .long, .long a, .int b => .long <$> longShift op a b
  | .float, .float a, .float b =>
      (fun n => .float (UInt32.ofNat n)) <$> floatOp Binary.single op a.toNat b.toNat
  | .double, .double a, .double b =>
      (fun n => .double (UInt64.ofNat n)) <$> floatOp Binary.double op a.toNat b.toNat
  | _, _, _ => .error .typeMismatch

/-- An arithmetic instruction. -/
def arithmetic (op : ArithOp) (kind : Kind) : List Value → Except EvalError Value
  | [a] => if op = .neg then negate kind a else .error .typeMismatch
  | [a, b] => if op = .neg then .error .typeMismatch else binary op kind a b
  | _ => .error .typeMismatch

/-! ### Comparisons -/

/-- The int that stands for an order. -/
def orderValue : Ordering → Int32
  | .lt => -1
  | .eq => 0
  | .gt => 1

/-- A comparison instruction. -/
def compare : Comparison → Value → Value → Except EvalError Value
  | .long, .long a, .long b => .ok (.int (orderValue (Ord.compare a.toInt b.toInt)))
  | .floatL, .float a, .float b => .ok (unordered (-1) (Binary.single.compare? a.toNat b.toNat))
  | .floatG, .float a, .float b => .ok (unordered 1 (Binary.single.compare? a.toNat b.toNat))
  | .doubleL, .double a, .double b =>
      .ok (unordered (-1) (Binary.double.compare? a.toNat b.toNat))
  | .doubleG, .double a, .double b => .ok (unordered 1 (Binary.double.compare? a.toNat b.toNat))
  | _, _, _ => .error .typeMismatch
where
  /-- The result for an order, or `default` if there is none. -/
  unordered (default : Int32) (order : Option Ordering) : Value :=
    .int ((order.map orderValue).getD default)

/-! ### Conversions -/

/-- An integer as a value of any kind. -/
def ofInteger (n : Int) : Kind → Value
  | .int => .int (Int32.ofInt n)
  | .long => .long (Int64.ofInt n)
  | .float => .float (UInt32.ofNat (Binary.single.ofInt n))
  | .double => .double (UInt64.ofNat (Binary.double.ofInt n))

/-- A floating-point pattern as a value of any kind. -/
def ofFloating (f : Binary.Format) (bits : Nat) : Kind → Value
  | .int => .int (Int32.ofInt (f.toIntWithin Int32.minValue.toInt Int32.maxValue.toInt bits))
  | .long => .long (Int64.ofInt (f.toIntWithin Int64.minValue.toInt Int64.maxValue.toInt bits))
  | .float => .float (UInt32.ofNat (f.convert Binary.single bits))
  | .double => .double (UInt64.ofNat (f.convert Binary.double bits))

/-- A value as a value of any kind. -/
def toKind (kind : Kind) : Value → Value
  | .int a => ofInteger a.toInt kind
  | .long a => ofInteger a.toInt kind
  | .float a => if kind = .float then .float a else ofFloating Binary.single a.toNat kind
  | .double a => if kind = .double then .double a else ofFloating Binary.double a.toNat kind

/-- A conversion instruction. The small targets take ints only. -/
def convert (source : Kind) (target : ConvertTarget) (v : Value) : Except EvalError Value :=
  if v.kind ≠ source then
    .error .typeMismatch
  else
    match target, v with
    | .kind kind, v => .ok (toKind kind v)
    | .byte, .int a => .ok (.int a.toInt8.toInt32)
    | .char, .int a => .ok (.int (a &&& 0xffff))
    | .short, .int a => .ok (.int a.toInt16.toInt32)
    | _, _ => .error .typeMismatch

/-! ### Branches -/

/-- Is the branch taken? Conditions on references are never known. -/
def branchTaken : Condition → List Value → Except EvalError (Option Bool)
  | .zero r, [.int a] => .ok (some (r.holds a 0))
  | .pair r, [.int a, .int b] => .ok (some (r.holds a b))
  | .reference _, _ => .ok none
  | .null _, _ => .ok none
  | _, _ => .error .typeMismatch

end Eval

end JvmOptimizer
