import JvmOptimizer.Bytes
import JvmOptimizer.Opcode
import JvmOptimizer.Value

/-!
# Instructions

The optimizer interprets constants, local variables, arithmetic, comparisons,
conversions and control transfers; every other instruction is carried
`verbatim`, opcode and operand bytes.

An instruction is parametric in how it names the places that control may go
to. A decoder first reads byte offsets, a method body uses positions in its
instruction list, and the instruction stream uses node identities;
`Instruction.mapTargets` and `Instruction.mapTargetsM` pass between them.
-/

namespace JvmOptimizer

/-- The operations of the arithmetic unit. -/
inductive ArithOp
  | add
  | sub
  | mul
  | div
  | rem
  | neg
  | shl
  | shr
  | ushr
  | and
  | or
  | xor
  deriving DecidableEq, Repr

namespace ArithOp

/-- Number of operands. -/
def arity : ArithOp → Nat
  | neg => 1
  | _ => 2

/-- Is the second operand a distance? Distances are ints whatever the kind. -/
def isShift : ArithOp → Bool
  | shl | shr | ushr => true
  | _ => false

/-- The name of the operation in mnemonics. -/
def name : ArithOp → String
  | add => "add"
  | sub => "sub"
  | mul => "mul"
  | div => "div"
  | rem => "rem"
  | neg => "neg"
  | shl => "shl"
  | shr => "shr"
  | ushr => "ushr"
  | and => "and"
  | or => "or"
  | xor => "xor"

end ArithOp

/-- The relation that a conditional branch tests. -/
inductive Relation
  | eq
  | ne
  | lt
  | ge
  | gt
  | le
  deriving DecidableEq, Repr

namespace Relation

/-- All relations, in opcode order. -/
def all : List Relation := [.eq, .ne, .lt, .ge, .gt, .le]

/-- Place of the relation in an opcode family. -/
def offset : Relation → Nat
  | eq => 0
  | ne => 1
  | lt => 2
  | ge => 3
  | gt => 4
  | le => 5

/-- Does the relation hold between two ints? -/
def holds (r : Relation) (a b : Int32) : Bool :=
  match r with
  | eq => a == b
  | ne => a != b
  | lt => a < b
  | ge => b ≤ a
  | gt => b < a
  | le => a ≤ b

/-- The name of the relation in mnemonics. -/
def name : Relation → String
  | eq => "eq"
  | ne => "ne"
  | lt => "lt"
  | ge => "ge"
  | gt => "gt"
  | le => "le"

end Relation

/-- The condition of a conditional branch. -/
inductive Condition
  /-- An int against zero. -/
  | zero (relation : Relation)
  /-- Two ints against each other. -/
  | pair (relation : Relation)
  /-- Are two references the same, or are they different? -/
  | reference (same : Bool)
  /-- Is a reference null, or is it not? -/
  | null (isNull : Bool)
  deriving DecidableEq, Repr

namespace Condition

/-- Number of stack operands. -/
def operands : Condition → Nat
  | zero _ => 1
  | pair _ => 2
  | reference _ => 2
  | null _ => 1

/-- The opcode of the branch. -/
def opcode : Condition → Opcode
  | zero r => UInt8.ofNat (0x99 + r.offset)
  | pair r => UInt8.ofNat (0x9f + r.offset)
  | reference same => if same then 0xa5 else 0xa6
  | null isNull => if isNull then 0xc6 else 0xc7

/-- The condition that a branch opcode tests. -/
def ofOpcode? (op : Opcode) : Option Condition :=
  let n := op.toNat
  if 0x99 ≤ n ∧ n ≤ 0x9e then Relation.all[n - 0x99]?.map zero
  else if 0x9f ≤ n ∧ n ≤ 0xa4 then Relation.all[n - 0x9f]?.map pair
  else if n = 0xa5 then some (reference true)
  else if n = 0xa6 then some (reference false)
  else if n = 0xc6 then some (null true)
  else if n = 0xc7 then some (null false)
  else none

end Condition

/-- Three-way comparisons, which push -1, 0 or 1. The `L` forms count an
unordered pair as less, the `G` forms as greater. -/
inductive Comparison
  | long
  | floatL
  | floatG
  | doubleL
  | doubleG
  deriving DecidableEq, Repr

namespace Comparison

/-- All comparisons, in opcode order. -/
def all : List Comparison := [.long, .floatL, .floatG, .doubleL, .doubleG]

/-- The kind of both operands. -/
def operandKind : Comparison → Kind
  | long => .long
  | floatL => .float
  | floatG => .float
  | doubleL => .double
  | doubleG => .double

/-- The opcode of the comparison. -/
def opcode : Comparison → Opcode
  | long => 0x94
  | floatL => 0x95
  | floatG => 0x96
  | doubleL => 0x97
  | doubleG => 0x98

end Comparison

/-- The result type of a conversion; the three small types are ints cut to
their width. -/
inductive ConvertTarget
  | kind (kind : Kind)
  | byte
  | char
  | short
  deriving DecidableEq, Repr

namespace ConvertTarget

/-- The kind of the converted value. -/
def resultKind : ConvertTarget → Kind
  | kind k => k
  | byte => .int
  | char => .int
  | short => .int

/-- The letter that a mnemonic of this conversion ends with. -/
def letter : ConvertTarget → String
  | kind k => k.letter
  | byte => "b"
  | char => "c"
  | short => "s"

end ConvertTarget

/-- The cases of a switch. -/
inductive SwitchTable (τ : Type)
  /-- One target for each key from `low` to `high`. -/
  | table (low high : Int32) (targets : List τ)
  /-- Targets for single keys. -/
  | lookup (pairs : List (Int32 × τ))
  deriving DecidableEq

namespace SwitchTable

variable {τ σ : Type}

/-- The targets of the cases, in order. -/
def targets : SwitchTable τ → List τ
  | table _ _ ts => ts
  | lookup pairs => pairs.map (·.2)

/-- The switch with every target replaced. -/
def map (f : τ → σ) : SwitchTable τ → SwitchTable σ
  | table low high ts => table low high (ts.map f)
  | lookup pairs => lookup (pairs.map fun p => (p.1, f p.2))

/-- The switch with every target replaced, in order, by a computation. -/
def mapM {m : Type → Type} [Monad m] (f : τ → m σ) : SwitchTable τ → m (SwitchTable σ)
  | table low high ts => return table low high (← ts.mapM f)
  | lookup pairs => return lookup (← pairs.mapM fun p => return (p.1, ← f p.2))

end SwitchTable

/-- One instruction, with `τ` for the places that control may go to. -/
inductive Instruction (τ : Type)
  /-- Push a constant. -/
  | const (value : Value)
  /-- Push a local variable. -/
  | load (kind : LocalKind) (index : UInt16)
  /-- Pop into a local variable. -/
  | store (kind : LocalKind) (index : UInt16)
  /-- Add to an int variable. -/
  | increment (index : UInt16) (delta : Int16)
  /-- Compute with the values on top of the stack. -/
  | arith (op : ArithOp) (kind : Kind)
  /-- Compare the two values on top of the stack. -/
  | compare (comparison : Comparison)
  /-- Convert the value on top of the stack. -/
  | convert (source : Kind) (target : ConvertTarget)
  /-- Go to the target if the condition holds of the values on top of the
  stack, which are popped. -/
  | branch (condition : Condition) (target : τ)
  /-- Go to the target. -/
  | jump (target : τ)
  /-- Pop an int and go to its case, or to `fallback` if it has none. -/
  | switch (fallback : τ) (cases : SwitchTable τ)
  /-- Any other instruction, byte for byte. -/
  | verbatim (opcode : Opcode) (operands : Bytes)
  deriving DecidableEq

namespace Instruction

variable {τ σ : Type}

/-- The places that control may go to other than the next instruction. -/
def targets : Instruction τ → List τ
  | branch _ target => [target]
  | jump target => [target]
  | switch fallback cases => fallback :: cases.targets
  | _ => []

/-- The instruction with every target replaced. -/
def mapTargets (f : τ → σ) : Instruction τ → Instruction σ
  | const v => const v
  | load kind index => load kind index
  | store kind index => store kind index
  | increment index delta => increment index delta
  | arith op kind => arith op kind
  | compare c => compare c
  | convert source target => convert source target
  | branch condition target => branch condition (f target)
  | jump target => jump (f target)
  | switch fallback cases => switch (f fallback) (cases.map f)
  | verbatim opcode operands => verbatim opcode operands

/-- The instruction with every target replaced, in the order of `targets`, by a
computation. -/
def mapTargetsM {m : Type → Type} [Monad m] (f : τ → m σ) :
    Instruction τ → m (Instruction σ)
  | const v => return const v
  | load kind index => return load kind index
  | store kind index => return store kind index
  | increment index delta => return increment index delta
  | arith op kind => return arith op kind
  | compare c => return compare c
  | convert source target => return convert source target
  | branch condition target => return branch condition (← f target)
  | jump target => return jump (← f target)
  | switch fallback cases => do
      let fallback ← f fallback
      return switch fallback (← cases.mapM f)
  | verbatim opcode operands => return verbatim opcode operands

/-- The instruction with every target `old` replaced by `new`. -/
def retarget [DecidableEq τ] (old new : τ) (insn : Instruction τ) : Instruction τ :=
  insn.mapTargets fun t => if t = old then new else t

/-- Can control pass on to the next instruction? -/
def fallsThrough : Instruction τ → Bool
  | jump _ => false
  | switch _ _ => false
  | verbatim opcode _ => !opcode.endsFlow
  | _ => true

/-- Slots pushed by an instruction that pushes one value and does nothing
else. -/
def pushedSlots? : Instruction τ → Option Nat
  | const v => some v.slots
  | load kind _ => some kind.slots
  | _ => none

/-- Does the instruction push one value and do nothing else? -/
def isPurePush (insn : Instruction τ) : Bool := insn.pushedSlots?.isSome

/-- The constant-pool index that a verbatim instruction carries in its first
operand bytes. -/
def poolIndex? (opcode : Opcode) (operands : Bytes) : Option UInt16 :=
  match opcode, operands with
  | Opcode.ldc, low :: _ => some low.toUInt16
  | Opcode.ldc, [] => none
  | _, high :: low :: _ => some (UInt16.ofNat (ofBigEndian [high, low]))
  | _, _ => none

end Instruction

end JvmOptimizer
