import JvmOptimizer.Code.Layout

/-!
# Writing code arrays

Each instruction gets its shortest form: constants and variables that have an
opcode of their own use it, small ints are written in the code, and any other
constant goes through the pool, into which it is put if need be. The pool keeps
what was put into it even if the body turns out to have no bytes.

An exception handler whose range covers no bytes is left out.
-/

namespace JvmOptimizer.Code

/-- A code array and its exception table. -/
structure Encoded where
  code : Bytes
  exceptions : List ExceptionEntry
  deriving DecidableEq

/-- A signed number in `width` bytes, two's complement. -/
def signedBytes (width : Nat) (n : Int) : Bytes :=
  bigEndian width (n % (Nat.pow 256 width : Nat)).toNat

/-! ### Instructions without targets -/

/-- The bytes that push the constant at a pool index. -/
def pooledBytes (slots : Nat) (index : UInt16) : Bytes :=
  if slots = 2 then Opcode.ldc2W :: wordBytes index
  else if index ≤ 255 then [Opcode.ldc, index.toUInt8]
  else Opcode.ldcW :: wordBytes index

/-- The bytes that push a constant, from the pool if it has an index there and no
opcode of its own. -/
def constantBytes (value : Value) (pooled : Option UInt16) : Bytes :=
  match shortConstant? value, pooled, value with
  | some opcode, _, _ => [opcode]
  | none, some index, _ => pooledBytes value.slots index
  | none, none, .int v =>
      if -128 ≤ v.toInt ∧ v.toInt ≤ 127 then 0x10 :: signedBytes 1 v.toInt
      else 0x11 :: signedBytes 2 v.toInt
  | none, none, _ => []

/-- A variable access: one byte for the first four variables, two for the
first 256, else a `wide` instruction. The families start at `short` and
`long`. -/
def localBytes (long short : Nat) (kind : LocalKind) (index : UInt16) : Bytes :=
  let explicit := UInt8.ofNat (long + kind.offset)
  if index ≤ 3 then [UInt8.ofNat (short + kind.offset * 4 + index.toNat)]
  else if index ≤ 255 then [explicit, index.toUInt8]
  else 0xc4 :: explicit :: wordBytes index

/-- An increment: `wide` unless the variable and the step fit into a byte
each. -/
def incrementBytes (index : UInt16) (delta : Int16) : Bytes :=
  let d := delta.toInt
  if index ≤ 255 ∧ -128 ≤ d ∧ d ≤ 127 then
    0x84 :: index.toUInt8 :: signedBytes 1 d
  else
    0xc4 :: 0x84 :: wordBytes index ++ signedBytes 2 d

/-- The opcode of an arithmetic instruction. An operation that only the integer
kinds have takes the opcode of int for a float and of long for a double. -/
def arithOpcode (op : ArithOp) (kind : Kind) : Opcode :=
  match numericOps.idxOf? op, integerOps.idxOf? op with
  | some i, _ => UInt8.ofNat (0x60 + 4 * i + kind.offset)
  | none, some i => UInt8.ofNat (0x78 + 2 * i + kind.offset % 2)
  | none, none => 0

/-- The opcode of a conversion. -/
def conversionOpcode? (source : Kind) (target : ConvertTarget) : Option Opcode :=
  (conversions.idxOf? (source, target)).map fun i => UInt8.ofNat (0x85 + i)

/-! ### Pieces -/

variable {π : Type} [Pool π]

/-- Computations that use and extend a pool, and keep it when they fail. -/
abbrev WithPool (π : Type) := ExceptT EncodeError (StateM π)

/-- The pool index of a constant, which is put into the pool if it is not there
yet. -/
def interned (value : Value) : WithPool π UInt16 := do
  match Pool.intern value (← get) with
  | .ok (index, pool) =>
      set pool
      return index
  | .error e => throw (.pool e)

/-- The piece of an instruction, with the index of a number that it takes from
the pool. -/
def piece (insn : Instruction Nat) : WithPool π Piece :=
  match pooled? insn with
  | some value => do return { insn, pooled := some (← interned value) }
  | none => return { insn }

/-! ### Bytes -/

/-- The bytes of the cases of a switch; `far` gives those of a target. -/
def casesBytes (far : Nat → Except EncodeError Bytes) :
    SwitchTable Nat → Except EncodeError Bytes
  | .table low high targets => do
      let cases ← targets.mapM far
      return signedBytes 4 low.toInt ++ signedBytes 4 high.toInt ++ cases.flatten
  | .lookup pairs => do
      let cases ← pairs.mapM fun (key, target) =>
        return signedBytes 4 key.toInt ++ (← far target)
      return signedBytes 4 pairs.length ++ cases.flatten

/-- The opcode of a switch. -/
def switchOpcode {τ : Type} : SwitchTable τ → Opcode
  | .table .. => 0xaa
  | .lookup _ => 0xab

/-- The bytes of the piece at `index` of a layout. -/
def pieceBytes (l : Layout) (index : Nat) (p : Piece) : Except EncodeError Bytes :=
  match p.insn with
  | .const value => return constantBytes value p.pooled
  | .load kind slot => return localBytes 0x15 0x1a kind slot
  | .store kind slot => return localBytes 0x36 0x3b kind slot
  | .increment slot delta => return incrementBytes slot delta
  | .arith op kind => return [arithOpcode op kind]
  | .compare c => return [c.opcode]
  | .convert source target =>
      match conversionOpcode? source target with
      | some opcode => return [opcode]
      | none => throw (.unencodable index)
  | .branch condition target => do
      return condition.opcode :: signedBytes 2 (← l.displacement index target)
  | .jump target => do
      let d ← l.displacement index target
      return if p.wide then 0xc8 :: signedBytes 4 d else 0xa7 :: signedBytes 2 d
  | .switch fallback cases => do
      let far := fun target => return signedBytes 4 (← l.displacement index target)
      let padding := List.replicate (switchPadding (l.offsets[index]?.getD 0)) 0
      let default ← far fallback
      return switchOpcode cases :: padding ++ default ++ (← casesBytes far cases)
  | .verbatim opcode operands => return opcode :: operands

/-- The rows of the exception table. A position behind the end of the body
counts as its end. -/
def exceptionTable (l : Layout) (handlers : List Handler) : List ExceptionEntry :=
  let pc := fun position => UInt16.ofNat (l.offsets[position]?.getD l.size)
  (handlers.filter fun h => pc h.start < pc h.stop).map fun h =>
    ⟨pc h.start, pc h.stop, pc h.entry, h.catchType⟩

/-- Lay out the pieces of a body and write them. -/
def assemble (pieces : List Piece) (handlers : List Handler) :
    Except EncodeError Encoded := do
  let (pieces, l) ← settle pieces
  if 65535 < l.size then
    throw (.codeTooLarge l.size)
  let bytes ← pieces.zipIdx.mapM fun (p, i) => pieceBytes l i p
  return ⟨bytes.flatten, exceptionTable l handlers⟩

/-- The bytes of a method body, and the pool with the constants they need. -/
def encode (m : Method) (pool : π) : Except EncodeError Encoded × π :=
  match (m.code.mapM piece : WithPool π (List Piece)) pool with
  | (.ok pieces, pool) => (assemble pieces m.handlers, pool)
  | (.error e, pool) => (.error e, pool)

end JvmOptimizer.Code
