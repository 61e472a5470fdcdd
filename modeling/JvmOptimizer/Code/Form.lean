import JvmOptimizer.Instruction.Basic

/-!
# Instruction forms

Which instruction an opcode begins, and which operands follow it in the code
array. The table is one function from opcodes to forms, so that the reader and
the writer of code arrays can be compared opcode by opcode.
-/

namespace JvmOptimizer.Code

/-- What an opcode stands for. -/
inductive Form
  /-- A constant that the opcode itself names. -/
  | constant (value : Value)
  /-- A signed byte follows. -/
  | byteConstant
  /-- A signed 16-bit number follows. -/
  | shortConstant
  /-- A pool index follows, one byte long or two. -/
  | poolConstant
  /-- A one-byte variable index follows. -/
  | load (kind : LocalKind)
  /-- The opcode names the variable. -/
  | loadAt (kind : LocalKind) (index : Nat)
  /-- A one-byte variable index follows. -/
  | store (kind : LocalKind)
  /-- The opcode names the variable. -/
  | storeAt (kind : LocalKind) (index : Nat)
  /-- A one-byte variable index and a signed byte follow. -/
  | increment
  | arith (op : ArithOp) (kind : Kind)
  | convert (source : Kind) (target : ConvertTarget)
  | compare (comparison : Comparison)
  /-- A signed 16-bit displacement follows. -/
  | branch (condition : Condition)
  /-- A signed 16-bit displacement follows. -/
  | jump
  /-- A signed 32-bit displacement follows. -/
  | jumpWide
  | tableSwitch
  | lookupSwitch
  /-- An opcode with operands of double width follows. -/
  | wide
  /-- This many operand bytes follow, which nobody looks into. -/
  | verbatim (operands : Nat)
  /-- Unassigned, or part of the subroutine mechanism. -/
  | unsupported
  deriving DecidableEq

/-- The conversions, in opcode order from 0x85 on. -/
def conversions : List (Kind × ConvertTarget) :=
  [(.int, .kind .long), (.int, .kind .float), (.int, .kind .double),
   (.long, .kind .int), (.long, .kind .float), (.long, .kind .double),
   (.float, .kind .int), (.float, .kind .long), (.float, .kind .double),
   (.double, .kind .int), (.double, .kind .long), (.double, .kind .float),
   (.int, .byte), (.int, .char), (.int, .short)]

/-- The operations of every kind, four opcodes each, from 0x60 on. -/
def numericOps : List ArithOp := [.add, .sub, .mul, .div, .rem, .neg]

/-- The operations of the integer kinds, two opcodes each, from 0x78 on. -/
def integerOps : List ArithOp := [.shl, .shr, .ushr, .and, .or, .xor]

/-- The arithmetic instruction at place `n` of a family that lists its `width`
kinds for each operation in turn. -/
def arithAt (ops : List ArithOp) (width n : Nat) : Form :=
  match ops[n / width]?, Kind.all[n % width]? with
  | some op, some kind => .arith op kind
  | _, _ => .unsupported

/-- The bits of the floating-point constants that opcodes name. -/
def floatConstants : List UInt32 := [0, 0x3f800000, 0x40000000]

/-- The bits of the double constants that opcodes name. -/
def doubleConstants : List UInt64 := [0, 0x3ff0000000000000]

/-- The constant that an opcode names. -/
def namedConstant? (op : Opcode) : Option Value :=
  let n := op.toNat
  if 0x02 ≤ n ∧ n ≤ 0x08 then some (.int (Int32.ofInt ((n : Int) - 3)))
  else if 0x09 ≤ n ∧ n ≤ 0x0a then some (.long (Int64.ofInt ((n : Int) - 9)))
  else if 0x0b ≤ n ∧ n ≤ 0x0d then floatConstants[n - 0x0b]?.map .float
  else if 0x0e ≤ n ∧ n ≤ 0x0f then doubleConstants[n - 0x0e]?.map .double
  else none

namespace Form

/-- The form of an opcode that is carried verbatim or not at all. -/
def verbatimOrUnsupported (op : Opcode) : Form :=
  if op.isSubroutine then
    .unsupported
  else
    match op.fixedLength with
    | some length => .verbatim (length - 1)
    | none => .unsupported

/-- The form of an opcode. -/
def ofOpcode (op : Opcode) : Form :=
  let n := op.toNat
  match namedConstant? op, Condition.ofOpcode? op with
  | some value, _ => .constant value
  | none, some condition => .branch condition
  | none, none =>
      if n = 0x10 then .byteConstant
      else if n = 0x11 then .shortConstant
      else if 0x12 ≤ n ∧ n ≤ 0x14 then .poolConstant
      else if 0x15 ≤ n ∧ n ≤ 0x19 then .load (.ofOffset (n - 0x15))
      else if 0x1a ≤ n ∧ n ≤ 0x2d then .loadAt (.ofOffset ((n - 0x1a) / 4)) ((n - 0x1a) % 4)
      else if 0x36 ≤ n ∧ n ≤ 0x3a then .store (.ofOffset (n - 0x36))
      else if 0x3b ≤ n ∧ n ≤ 0x4e then .storeAt (.ofOffset ((n - 0x3b) / 4)) ((n - 0x3b) % 4)
      else if 0x60 ≤ n ∧ n ≤ 0x77 then arithAt numericOps 4 (n - 0x60)
      else if 0x78 ≤ n ∧ n ≤ 0x83 then arithAt integerOps 2 (n - 0x78)
      else if n = 0x84 then .increment
      else if 0x85 ≤ n ∧ n ≤ 0x93 then
        match conversions[n - 0x85]? with
        | some (source, target) => .convert source target
        | none => .unsupported
      else if 0x94 ≤ n ∧ n ≤ 0x98 then
        match Comparison.all[n - 0x94]? with
        | some comparison => .compare comparison
        | none => .unsupported
      else if n = 0xa7 then .jump
      else if n = 0xaa then .tableSwitch
      else if n = 0xab then .lookupSwitch
      else if n = 0xc4 then .wide
      else if n = 0xc8 then .jumpWide
      else verbatimOrUnsupported op

end Form

end JvmOptimizer.Code
