import JvmOptimizer.Descriptor
import JvmOptimizer.Instruction.Text
import JvmOptimizer.Pool.Basic

/-!
# Stack effects

How many operand stack slots an instruction pops and pushes. Field accesses and
calls take their sizes from the descriptor of the member they refer to.
-/

namespace JvmOptimizer

/-- Slots popped and pushed, in that order. -/
structure StackEffect where
  pops : Nat
  pushes : Nat
  deriving DecidableEq

/-- Why a stack effect or a stack depth is not known. -/
inductive StackError
  /-- The opcode, or one of this length, has no known effect. -/
  | unknownOpcode (opcode : Opcode)
  /-- The pool index names no member. -/
  | unresolvedMember (index : UInt16)
  /-- The descriptor is not one of a field or method, as the case may be. -/
  | badDescriptor (descriptor : String)
  /-- More slots are popped than there are. -/
  | underflow (index : Nat)
  deriving DecidableEq

/-- The text of a stack error. -/
def StackError.message : StackError → String
  | unknownOpcode opcode => s!"No stack effect known for opcode {hexByte opcode}"
  | unresolvedMember index =>
      s!"Constant pool entry {index.toNat} is not a member reference"
  | badDescriptor descriptor => s!"Invalid descriptor: {descriptor}"
  | underflow index => s!"Operand stack underflow at instruction {index}"

namespace StackEffect

/-- What a verbatim instruction takes its effect from. -/
inductive Rule
  /-- The opcode alone. -/
  | fixed (effect : StackEffect)
  /-- A field of the given descriptor is read (`true`) or written, with or
  without a receiver. -/
  | field (reads receiver : Bool)
  /-- A method is called, with or without a receiver. -/
  | call (receiver : Bool)
  /-- As many dimensions as the third operand byte says are popped. -/
  | dimensions
  | unknown

/-- The rule of each opcode that an instruction may carry verbatim. -/
def rule (op : Opcode) : Rule :=
  match op.toNat with
  -- nop, aconst_null, ldc, ldc_w, ldc2_w
  | 0x00 => .fixed ⟨0, 0⟩
  | 0x01 | 0x12 | 0x13 => .fixed ⟨0, 1⟩
  | 0x14 => .fixed ⟨0, 2⟩
  -- array loads
  | 0x2e | 0x30 | 0x32 | 0x33 | 0x34 | 0x35 => .fixed ⟨2, 1⟩
  | 0x2f | 0x31 => .fixed ⟨2, 2⟩
  -- array stores
  | 0x4f | 0x51 | 0x53 | 0x54 | 0x55 | 0x56 => .fixed ⟨3, 0⟩
  | 0x50 | 0x52 => .fixed ⟨4, 0⟩
  -- pop, pop2
  | 0x57 => .fixed ⟨1, 0⟩
  | 0x58 => .fixed ⟨2, 0⟩
  -- dup, dup_x1, dup_x2, dup2, dup2_x1, dup2_x2, swap
  | 0x59 => .fixed ⟨1, 2⟩
  | 0x5a => .fixed ⟨2, 3⟩
  | 0x5b => .fixed ⟨3, 4⟩
  | 0x5c => .fixed ⟨2, 4⟩
  | 0x5d => .fixed ⟨3, 5⟩
  | 0x5e => .fixed ⟨4, 6⟩
  | 0x5f => .fixed ⟨2, 2⟩
  -- returns
  | 0xac | 0xae | 0xb0 => .fixed ⟨1, 0⟩
  | 0xad | 0xaf => .fixed ⟨2, 0⟩
  | 0xb1 => .fixed ⟨0, 0⟩
  -- getstatic, putstatic, getfield, putfield
  | 0xb2 => .field true false
  | 0xb3 => .field false false
  | 0xb4 => .field true true
  | 0xb5 => .field false true
  -- invokevirtual, invokespecial, invokeinterface; invokestatic, invokedynamic
  | 0xb6 | 0xb7 | 0xb9 => .call true
  | 0xb8 | 0xba => .call false
  -- new; newarray, anewarray, arraylength, checkcast, instanceof
  | 0xbb => .fixed ⟨0, 1⟩
  | 0xbc | 0xbd | 0xbe | 0xc0 | 0xc1 => .fixed ⟨1, 1⟩
  -- athrow, monitorenter, monitorexit
  | 0xbf | 0xc2 | 0xc3 => .fixed ⟨1, 0⟩
  | 0xc5 => .dimensions
  | _ => .unknown

variable {π : Type} [Pool π]

/-- The descriptor of the member that a verbatim instruction refers to. -/
def member (pool : π) (opcode : Opcode) (operands : Bytes) : Except StackError String :=
  match Instruction.poolIndex? opcode operands with
  | none => .error (.unknownOpcode opcode)
  | some index =>
      match Pool.memberDescriptor? pool index with
      | none => .error (.unresolvedMember index)
      | some descriptor => .ok descriptor

/-- The effect of a verbatim instruction. -/
def ofVerbatim (pool : π) (opcode : Opcode) (operands : Bytes) :
    Except StackError StackEffect :=
  match rule opcode with
  | .fixed effect => .ok effect
  | .field reads receiver => do
      let descriptor ← member pool opcode operands
      match Descriptor.fieldSlots? descriptor with
      | none => .error (.badDescriptor descriptor)
      | some slots =>
          if reads then
            .ok ⟨receiver.toNat, slots⟩
          else
            .ok ⟨receiver.toNat + slots, 0⟩
  | .call receiver => do
      let descriptor ← member pool opcode operands
      match Descriptor.methodShape? descriptor with
      | none => .error (.badDescriptor descriptor)
      | some shape => .ok ⟨(shape.argumentSlots receiver).toNat, shape.returnSlots⟩
  | .dimensions =>
      match operands[2]? with
      | none => .error (.unknownOpcode opcode)
      | some count => .ok ⟨count.toNat, 1⟩
  | .unknown => .error (.unknownOpcode opcode)

end StackEffect

/-- The effect of an instruction. -/
def Instruction.stackEffect {π τ : Type} [Pool π] (pool : π) :
    Instruction τ → Except StackError StackEffect
  | const v => .ok ⟨0, v.slots⟩
  | load kind _ => .ok ⟨0, kind.slots⟩
  | store kind _ => .ok ⟨kind.slots, 0⟩
  | increment _ _ => .ok ⟨0, 0⟩
  | arith op kind =>
      if op.isShift then
        .ok ⟨kind.slots + 1, kind.slots⟩
      else
        .ok ⟨kind.slots * op.arity, kind.slots⟩
  | compare c => .ok ⟨c.operandKind.slots * 2, 1⟩
  | convert source target => .ok ⟨source.slots, target.resultKind.slots⟩
  | branch condition _ => .ok ⟨condition.operands, 0⟩
  | jump _ => .ok ⟨0, 0⟩
  | switch _ _ => .ok ⟨1, 0⟩
  | verbatim opcode operands => StackEffect.ofVerbatim pool opcode operands

end JvmOptimizer
