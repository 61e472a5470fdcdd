import JvmOptimizer.Code.Decode

/-!
# Code layout

Between a method body and its bytes stands a list of pieces: the instructions,
each with the choices that settle how long it is. A constant has an index if it
goes through the pool, and a jump is narrow or wide. How many bytes a piece takes
is said here without writing them; only the padding of a switch depends on where
the piece comes to lie.

A jump starts out narrow. As long as one does not reach its target it is made
wide, which moves everything behind it; widening never goes back, so the
process settles after at most one round per jump.
-/

namespace JvmOptimizer.Code

/-- Why a method body has no bytes. -/
inductive EncodeError
  /-- A conditional branch does not reach its target. -/
  | branchOutOfRange (index : Nat) (offset : Int)
  /-- A target lies behind the end of the body. -/
  | missingTarget (index target : Nat)
  /-- There is no opcode for the instruction. -/
  | unencodable (index : Nat)
  /-- The code array is longer than a class file allows. -/
  | codeTooLarge (size : Nat)
  /-- A constant did not fit into the pool. -/
  | pool (error : PoolError)
  deriving DecidableEq

/-- The text of an encoding error. -/
def EncodeError.message : EncodeError → String
  | branchOutOfRange index offset =>
      s!"Conditional branch at index {index} needs offset {offset}, beyond 16-bit range"
  | missingTarget index target =>
      s!"Instruction {index} refers to missing target {target}"
  | unencodable index => s!"Instruction {index} has no bytecode encoding"
  | codeTooLarge size =>
      s!"Encoded method is {size} bytes, larger than the 65535 byte limit"
  | pool error => s!"Constant pool error: {error.message}"

/-! ### Pieces -/

/-- The opcode that pushes the constant by itself. -/
def shortConstant? : Value → Option Opcode
  | .int v =>
      if -1 ≤ v.toInt ∧ v.toInt ≤ 5 then some (UInt8.ofNat (v.toInt + 3).toNat) else none
  | .long v => if v = 0 then some 0x09 else if v = 1 then some 0x0a else none
  | .float bits => (floatConstants.idxOf? bits).map fun i => UInt8.ofNat (0x0b + i)
  | .double bits => (doubleConstants.idxOf? bits).map fun i => UInt8.ofNat (0x0e + i)

/-- Does the constant have to be loaded from the pool? An int of 16 bits stands in
the code itself. -/
def needsPool (value : Value) : Bool :=
  match value with
  | .int v => (shortConstant? value).isNone && !(-32768 ≤ v.toInt && v.toInt ≤ 32767)
  | _ => (shortConstant? value).isNone

/-- The number that an instruction takes from the pool. -/
def pooled? : Instruction Nat → Option Value
  | .const value => if needsPool value then some value else none
  | _ => none

/-- An instruction on its way to bytes. -/
structure Piece where
  insn : Instruction Nat
  /-- Where the pool has the number that the instruction takes from it. -/
  pooled : Option UInt16 := none
  /-- Has the jump a displacement of 32 bits? -/
  wide : Bool := false

namespace Piece

/-- Bytes that push a constant, of which the pool may have a copy. -/
def constantSize (value : Value) (pooled : Option UInt16) : Nat :=
  if (shortConstant? value).isSome then 1
  else
    match pooled, value with
    | some index, _ => if value.slots = 1 ∧ index ≤ 255 then 2 else 3
    | none, .int v => if -128 ≤ v.toInt ∧ v.toInt ≤ 127 then 2 else 3
    | none, _ => 3

/-- Bytes of a variable access. -/
def localSize (index : UInt16) : Nat :=
  if index ≤ 3 then 1 else if index ≤ 255 then 2 else 4

/-- Bytes of an increment. -/
def incrementSize (index : UInt16) (delta : Int16) : Nat :=
  if index ≤ 255 ∧ -128 ≤ delta.toInt ∧ delta.toInt ≤ 127 then 3 else 6

/-- Bytes that the cases of a switch take, with the fallback. -/
def casesSize {τ : Type} : SwitchTable τ → Nat
  | .table _ _ targets => 12 + 4 * targets.length
  | .lookup pairs => 8 + 8 * pairs.length

/-- Bytes that a piece takes at offset `pc`. An instruction without an opcode
counts as one byte until its turn comes to be written. -/
def size (pc : Nat) (p : Piece) : Nat :=
  match p.insn with
  | .const value => constantSize value p.pooled
  | .load _ index | .store _ index => localSize index
  | .increment index delta => incrementSize index delta
  | .arith _ _ | .compare _ | .convert _ _ => 1
  | .branch _ _ => 3
  | .jump _ => if p.wide then 5 else 3
  | .switch _ cases => 1 + switchPadding pc + casesSize cases
  | .verbatim _ operands => 1 + operands.length

/-- Is the piece a jump that could still be widened? -/
def isNarrowJump (p : Piece) : Bool :=
  match p.insn with
  | .jump _ => !p.wide
  | _ => false

end Piece

/-! ### Layouts -/

/-- Where the pieces lie. -/
structure Layout where
  /-- The offset of each piece. -/
  offsets : Array Nat
  /-- The offset behind the last piece. -/
  size : Nat

namespace Layout

/-- The layout with one more piece behind it. -/
def push (l : Layout) (p : Piece) : Layout := ⟨l.offsets.push l.size, l.size + p.size l.size⟩

/-- Pieces laid out one behind the other from offset zero. -/
def ofPieces (pieces : List Piece) : Layout := pieces.foldl push ⟨#[], 0⟩

/-- The offset of a position; the position behind the last piece counts. -/
def offset? (l : Layout) (position : Nat) : Option Nat :=
  if position = l.offsets.size then some l.size else l.offsets[position]?

/-- How far it is from the piece at `index` to its target. -/
def displacement (l : Layout) (index target : Nat) : Except EncodeError Int :=
  match l.offset? target with
  | some there => .ok ((there : Int) - (l.offsets[index]?.getD 0 : Nat))
  | none => .error (.missingTarget index target)

end Layout

/-- Does a displacement fit into 16 bits? -/
def fitsNear (d : Int) : Bool := -32768 ≤ d && d ≤ 32767

/-- The piece as it has to be if it lies as in the layout: jumps that do not
reach their target are wide. -/
def widen (l : Layout) (index : Nat) (p : Piece) : Except EncodeError Piece :=
  match p.insn with
  | .jump target =>
      if p.wide then
        return p
      else do
        let d ← l.displacement index target
        return { p with wide := !fitsNear d }
  | .branch _ target => do
      let d ← l.displacement index target
      if fitsNear d then
        return p
      else
        throw (.branchOutOfRange index d)
  | _ => return p

/-- Number of jumps that could still be widened. -/
def narrowJumps (pieces : List Piece) : Nat := pieces.countP Piece.isNarrowJump

/-- Widen jumps until every displacement fits where it is written. -/
def settle (pieces : List Piece) : Except EncodeError (List Piece × Layout) :=
  let l := Layout.ofPieces pieces
  match pieces.zipIdx.mapM fun (p, i) => widen l i p with
  | .error e => .error e
  | .ok widened =>
      if narrowJumps widened < narrowJumps pieces then
        settle widened
      else
        .ok (pieces, l)
termination_by narrowJumps pieces

end JvmOptimizer.Code
