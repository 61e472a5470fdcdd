/-!
# Opcodes

The numbering of the machine's instructions: their mnemonics, the lengths of
those that have a fixed one, and which of them never pass control on to the
instruction behind them.
-/

namespace JvmOptimizer

/-- The first byte of an instruction. -/
abbrev Opcode := UInt8

namespace Opcode

/-- Mnemonics of the assigned opcodes, from 0 on. -/
def mnemonics : Array String :=
  #["nop", "aconst_null", "iconst_m1", "iconst_0", "iconst_1", "iconst_2",
    "iconst_3", "iconst_4", "iconst_5", "lconst_0", "lconst_1", "fconst_0",
    "fconst_1", "fconst_2", "dconst_0", "dconst_1", "bipush", "sipush", "ldc",
    "ldc_w", "ldc2_w", "iload", "lload", "fload", "dload", "aload", "iload_0",
    "iload_1", "iload_2", "iload_3", "lload_0", "lload_1", "lload_2", "lload_3",
    "fload_0", "fload_1", "fload_2", "fload_3", "dload_0", "dload_1", "dload_2",
    "dload_3", "aload_0", "aload_1", "aload_2", "aload_3", "iaload", "laload",
    "faload", "daload", "aaload", "baload", "caload", "saload", "istore", "lstore",
    "fstore", "dstore", "astore", "istore_0", "istore_1", "istore_2", "istore_3",
    "lstore_0", "lstore_1", "lstore_2", "lstore_3", "fstore_0", "fstore_1",
    "fstore_2", "fstore_3", "dstore_0", "dstore_1", "dstore_2", "dstore_3",
    "astore_0", "astore_1", "astore_2", "astore_3", "iastore", "lastore",
    "fastore", "dastore", "aastore", "bastore", "castore", "sastore", "pop",
    "pop2", "dup", "dup_x1", "dup_x2", "dup2", "dup2_x1", "dup2_x2", "swap",
    "iadd", "ladd", "fadd", "dadd", "isub", "lsub", "fsub", "dsub", "imul", "lmul",
    "fmul", "dmul", "idiv", "ldiv", "fdiv", "ddiv", "irem", "lrem", "frem", "drem",
    "ineg", "lneg", "fneg", "dneg", "ishl", "lshl", "ishr", "lshr", "iushr",
    "lushr", "iand", "land", "ior", "lor", "ixor", "lxor", "iinc", "i2l", "i2f",
    "i2d", "l2i", "l2f", "l2d", "f2i", "f2l", "f2d", "d2i", "d2l", "d2f", "i2b",
    "i2c", "i2s", "lcmp", "fcmpl", "fcmpg", "dcmpl", "dcmpg", "ifeq", "ifne",
    "iflt", "ifge", "ifgt", "ifle", "if_icmpeq", "if_icmpne", "if_icmplt",
    "if_icmpge", "if_icmpgt", "if_icmple", "if_acmpeq", "if_acmpne", "goto", "jsr",
    "ret", "tableswitch", "lookupswitch", "ireturn", "lreturn", "freturn",
    "dreturn", "areturn", "return", "getstatic", "putstatic", "getfield",
    "putfield", "invokevirtual", "invokespecial", "invokestatic",
    "invokeinterface", "invokedynamic", "new", "newarray", "anewarray",
    "arraylength", "athrow", "checkcast", "instanceof", "monitorenter",
    "monitorexit", "wide", "multianewarray", "ifnull", "ifnonnull", "goto_w",
    "jsr_w"]

/-- The mnemonic of an opcode. -/
def mnemonic (op : Opcode) : String := mnemonics[op.toNat]?.getD "<invalid>"

/-! ### Opcodes with a role of their own -/

/-- Push a one-slot constant, by a one-byte pool index. -/
@[match_pattern] abbrev ldc : Opcode := 0x12

/-- Push a one-slot constant, by a two-byte pool index. -/
@[match_pattern] abbrev ldcW : Opcode := 0x13

/-- Push a two-slot constant, by a two-byte pool index. -/
@[match_pattern] abbrev ldc2W : Opcode := 0x14

/-- Discard one stack slot. -/
@[match_pattern] abbrev pop : Opcode := 0x57

/-- Discard two stack slots. -/
@[match_pattern] abbrev pop2 : Opcode := 0x58

/-- Call a subroutine of the method. -/
@[match_pattern] abbrev jsr : Opcode := 0xa8

/-- Return from a subroutine of the method. -/
@[match_pattern] abbrev ret : Opcode := 0xa9

/-- Call a subroutine of the method, far away. -/
@[match_pattern] abbrev jsrW : Opcode := 0xc9

/-- Call a method of a superclass, a private method or a constructor. -/
@[match_pattern] abbrev invokespecial : Opcode := 0xb7

/-- Call a static method. -/
@[match_pattern] abbrev invokestatic : Opcode := 0xb8

/-- Does the opcode belong to the subroutine mechanism, which passes code
addresses through the stack and local variables? -/
def isSubroutine (op : Opcode) : Bool := op == jsr || op == jsrW || op == ret

/-! ### Lengths and control flow -/

/-- The length of an instruction with its opcode. The two switches and the
`wide` instructions have no fixed length, and neither do unassigned opcodes. -/
def fixedLength (op : Opcode) : Option Nat :=
  let n := op.toNat
  if n ≤ 0x0f then some 1
  else if n = 0x10 ∨ n = 0x12 then some 2
  else if n ≤ 0x14 then some 3
  else if n ≤ 0x19 then some 2
  else if n ≤ 0x35 then some 1
  else if n ≤ 0x3a then some 2
  else if n ≤ 0x83 then some 1
  else if n = 0x84 then some 3
  else if n ≤ 0x98 then some 1
  else if n ≤ 0xa8 then some 3
  else if n = 0xa9 then some 2
  else if n ≤ 0xab then none
  else if n ≤ 0xb1 then some 1
  else if n ≤ 0xb8 then some 3
  else if n ≤ 0xba then some 5
  else if n = 0xbb then some 3
  else if n = 0xbc then some 2
  else if n = 0xbd then some 3
  else if n ≤ 0xbf then some 1
  else if n ≤ 0xc1 then some 3
  else if n ≤ 0xc3 then some 1
  else if n = 0xc4 then none
  else if n = 0xc5 then some 4
  else if n ≤ 0xc7 then some 3
  else if n ≤ 0xc9 then some 5
  else none

/-- Does control never reach the next instruction? True of jumps, switches,
returns and throws. -/
def endsFlow (op : Opcode) : Bool :=
  let n := op.toNat
  n == 0xa7 || n == 0xc8 || n == 0xa9 || n == 0xbf || (0xaa ≤ n && n ≤ 0xb1)

end Opcode

end JvmOptimizer
