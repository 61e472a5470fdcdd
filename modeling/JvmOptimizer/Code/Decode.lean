import JvmOptimizer.Code.Form
import JvmOptimizer.Method
import JvmOptimizer.Pool.Basic

/-!
# Reading code arrays

A code array is read in two steps. First every instruction is read in turn,
with its targets as byte offsets; then each offset is looked up among the
offsets at which an instruction starts, and so are the bounds of the exception
table. A fault of the first step is thus found before any of the second.
-/

namespace JvmOptimizer.Code

/-- Why a code array cannot be read. -/
inductive DecodeError
  /-- The code ends inside an instruction. -/
  | truncated (offset : Nat)
  /-- The instruction is not one that the library can represent. -/
  | unsupportedOpcode (opcode : Opcode) (offset : Nat)
  /-- No instruction starts at a target. -/
  | badTarget (offset : Nat) (target : Int)
  /-- A row of the exception table is empty or splits an instruction. -/
  | badExceptionRange (index : Nat)
  /-- A switch has no keys at all or a negative number of them. -/
  | badSwitch (offset : Nat)
  deriving DecidableEq

/-- The text of a decoding error. -/
def DecodeError.message : DecodeError → String
  | truncated offset => s!"Code array truncated at offset {offset}"
  | unsupportedOpcode opcode offset =>
      s!"Unsupported opcode {hexByte opcode} at offset {offset}"
  | badTarget offset target =>
      s!"Branch at offset {offset} targets {target}, which is not an instruction boundary"
  | badExceptionRange index =>
      s!"Exception table entry {index} does not line up with instruction boundaries"
  | badSwitch offset => s!"Malformed switch at offset {offset}"

instance : Truncation DecodeError where
  truncated offset _ := .truncated offset

/-- Bytes between the opcode of a switch at `pc` and its operands, which start
at a multiple of four. -/
def switchPadding (pc : Nat) : Nat := (4 - (pc + 1) % 4) % 4

open Reader

/-- A displacement of 16 bits from `pc`. -/
def near (pc : Nat) : Reader DecodeError Int := return pc + (← i16).toInt

/-- A displacement of 32 bits from `pc`. -/
def far (pc : Nat) : Reader DecodeError Int := return pc + (← i32).toInt

/-- The cases of a `tableswitch` at `pc`. -/
def tableCases (pc : Nat) : Reader DecodeError (SwitchTable Int) := do
  let low ← i32
  let high ← i32
  if high < low then
    throw (.badSwitch pc)
  let targets ← many (far pc) (high.toInt - low.toInt + 1).toNat
  return .table low high targets

/-- The cases of a `lookupswitch` at `pc`. -/
def lookupCases (pc : Nat) : Reader DecodeError (SwitchTable Int) := do
  let count ← i32
  if count < 0 then
    throw (.badSwitch pc)
  let pairs ← many (do let key ← i32; return (key, ← far pc)) count.toInt.toNat
  return .lookup pairs

/-- The operands of a switch at `pc`. -/
def switchOperands (pc : Nat) (cases : Reader DecodeError (SwitchTable Int)) :
    Reader DecodeError (Instruction Int) := do
  let _ ← take (switchPadding pc)
  let fallback ← far pc
  return .switch fallback (← cases)

/-- The instruction behind a `wide` opcode at `pc`. -/
def wideOperands (pc : Nat) : Reader DecodeError (Instruction Int) := do
  let opcode ← u8
  match Form.ofOpcode opcode with
  | .load kind => return .load kind (← u16)
  | .store kind => return .store kind (← u16)
  | .increment =>
      let index ← u16
      return .increment index (← i16)
  | _ => throw (.unsupportedOpcode opcode pc)

variable {π : Type} [Pool π]

/-- The constant load with these operand bytes: the number in the pool if it
has the width that the opcode pushes, otherwise the instruction as it is. -/
def poolLoad (pool : π) (opcode : Opcode) (operands : Bytes) : Instruction Int :=
  match Pool.resolve? pool (UInt16.ofNat (ofBigEndian operands)) with
  | some value =>
      if (value.slots == 2) == (opcode == Opcode.ldc2W) then
        .const value
      else
        .verbatim opcode operands
  | none => .verbatim opcode operands

/-- The instruction that an opcode of the given form begins at `pc`, read from
the operands behind the opcode, with byte offsets as targets. -/
def operands (pool : π) (pc : Nat) (opcode : Opcode) : Form → Reader DecodeError (Instruction Int)
  | .constant value => return .const value
  | .byteConstant => return .const (.int (← i8).toInt32)
  | .shortConstant => return .const (.int (← i16).toInt32)
  | .poolConstant =>
      return poolLoad pool opcode (← take (if opcode = Opcode.ldc then 1 else 2))
  | .load kind => return .load kind (← u8).toUInt16
  | .loadAt kind index => return .load kind (UInt16.ofNat index)
  | .store kind => return .store kind (← u8).toUInt16
  | .storeAt kind index => return .store kind (UInt16.ofNat index)
  | .increment => do
      let index ← u8
      return .increment index.toUInt16 (← i8).toInt16
  | .arith op kind => return .arith op kind
  | .convert source target => return .convert source target
  | .compare comparison => return .compare comparison
  | .branch condition => return .branch condition (← near pc)
  | .jump => return .jump (← near pc)
  | .jumpWide => return .jump (← far pc)
  | .tableSwitch => switchOperands pc (tableCases pc)
  | .lookupSwitch => switchOperands pc (lookupCases pc)
  | .wide => wideOperands pc
  | .verbatim length => return .verbatim opcode (← take length)
  | .unsupported => throw (.unsupportedOpcode opcode pc)

/-- One instruction, with byte offsets as targets. -/
def instruction (pool : π) : Reader DecodeError (Instruction Int) := do
  let pc ← offset
  let opcode ← u8
  operands pool pc opcode (Form.ofOpcode opcode)

/-- The instructions from a cursor on, each with its offset, behind those
already found (latest first). Every instruction takes a byte at least, so the
number of bytes is fuel enough. -/
def instructionsAfter (pool : π) :
    (fuel : Nat) → (found : List (Nat × Instruction Int)) → Cursor →
      Except DecodeError (List (Nat × Instruction Int))
  | 0, found, _ => .ok found.reverse
  | fuel + 1, found, cursor =>
      if cursor.rest.isEmpty then
        .ok found.reverse
      else
        match instruction pool cursor with
        | .error e => .error e
        | .ok (insn, next) => instructionsAfter pool fuel ((cursor.offset, insn) :: found) next

/-- All instructions of a code array, each with its offset. -/
def instructions (pool : π) (code : Bytes) :
    Except DecodeError (List (Nat × Instruction Int)) :=
  instructionsAfter pool code.length [] (Cursor.start code)

/-! ### Positions -/

/-- The position of the instruction that starts at `target`. -/
def position (offsets : List Nat) (pc : Nat) (target : Int) : Except DecodeError Nat :=
  match target with
  | .ofNat t =>
      match offsets.idxOf? t with
      | some i => .ok i
      | none => .error (.badTarget pc target)
  | .negSucc _ => .error (.badTarget pc target)

/-- A handler for row `index` of the exception table, in a code array of
`length` bytes. -/
def handler (offsets : List Nat) (length index : Nat) (e : ExceptionEntry) :
    Except DecodeError Handler :=
  let stop? :=
    if e.endPc.toNat = length then some offsets.length else offsets.idxOf? e.endPc.toNat
  match offsets.idxOf? e.startPc.toNat, stop?, offsets.idxOf? e.handlerPc.toNat with
  | some start, some stop, some entry =>
      if start < stop then
        .ok ⟨start, stop, entry, e.catchType⟩
      else
        .error (.badExceptionRange index)
  | _, _, _ => .error (.badExceptionRange index)

/-- The method body of a code array and its exception table. The limits of the
method are not part of the code and stay zero. -/
def decode (pool : π) (code : Bytes) (exceptions : List ExceptionEntry) :
    Except DecodeError Method := do
  let found ← instructions pool code
  let offsets := found.map (·.1)
  let body ← found.mapM fun (pc, insn) => insn.mapTargetsM (position offsets pc)
  let handlers ← exceptions.zipIdx.mapM fun (e, i) => handler offsets code.length i e
  return { code := body, handlers }

end JvmOptimizer.Code
