import JvmOptimizer.CodeStream.Edit

/-!
# Optimization errors

Why a method is left as it is.
-/

namespace JvmOptimizer

/-- Why a method cannot be optimized. -/
inductive OptimizeError
  /-- The instruction has an effect that the optimizer does not model. -/
  | unsupportedInstruction (opcode : Opcode) (position : Nat)
  /-- A reference leads nowhere, or would after a deletion. -/
  | danglingTarget (error : DanglingTarget)
  /-- The operand stack holds too little, or values of the wrong kinds. -/
  | inconsistentStack (node : Nat)
  deriving DecidableEq

/-- The text of an optimization error. -/
def OptimizeError.message : OptimizeError → String
  | unsupportedInstruction opcode position =>
      s!"Unsupported instruction {hexByte opcode} at position {position}"
  | danglingTarget error => error.message
  | inconsistentStack node => s!"Simulated operand stack underflow at node #{node}"

end JvmOptimizer
