import JvmOptimizer.Instruction.Basic

/-!
# Instruction text

One line per instruction: its mnemonic, its operands and, behind an arrow, the
place it may transfer control to.
-/

namespace JvmOptimizer

/-- A number in hexadecimal with at least `width` digits. -/
def hexDigits (width n : Nat) : String :=
  let digits := Nat.toDigits 16 n
  String.ofList (List.replicate (width - digits.length) '0' ++ digits)

/-- A byte as `0x` and two hexadecimal digits. -/
def hexByte (byte : UInt8) : String := "0x" ++ hexDigits 2 byte.toNat

/-- The mnemonic of a conditional branch. -/
def Condition.mnemonic (c : Condition) : String := c.opcode.mnemonic

/-- The text of an instruction with numbered targets. -/
def Instruction.text : Instruction Nat → String
  | const v => s!"{v.kind.letter}const {v.text}"
  | load kind index => s!"{kind.letter}load {index.toNat}"
  | store kind index => s!"{kind.letter}store {index.toNat}"
  | increment index delta => s!"iinc {index.toNat} {delta.toInt}"
  | arith op kind => kind.letter ++ op.name
  | compare c => c.opcode.mnemonic
  | convert source target => s!"{source.letter}2{target.letter}"
  | branch condition target => s!"{condition.mnemonic} -> {target}"
  | jump target => s!"goto -> {target}"
  | switch fallback (.table low high _) =>
      s!"tableswitch [{low.toInt}..{high.toInt}] default -> {fallback}"
  | switch fallback (.lookup pairs) =>
      s!"lookupswitch ({pairs.length} cases) default -> {fallback}"
  | verbatim opcode operands =>
      operands.foldl (fun line byte => line ++ " " ++ hexByte byte) opcode.mnemonic

end JvmOptimizer
