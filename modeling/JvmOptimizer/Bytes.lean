/-!
# Byte strings

Class files and code arrays are big-endian throughout. This module fixes the
one spelling of a word as bytes (`bigEndian`) and the one way of reading words
back (`Reader`), so that every format in the library is written and read with
the same few operations.

A reader walks a `Cursor`, which remembers how far it has come; running out of
bytes is reported through `Truncation`, because the code array and the class
file describe the same accident with different errors.
-/

namespace JvmOptimizer

/-- A byte string. -/
abbrev Bytes := List UInt8

/-- The `width` low-order bytes of `n`, most significant first. -/
def bigEndian : (width : Nat) → (n : Nat) → Bytes
  | 0, _ => []
  | width + 1, n => UInt8.ofNat (n / Nat.pow 256 width) :: bigEndian width n

/-- The number a byte string spells, most significant byte first. -/
def ofBigEndian (bytes : Bytes) : Nat :=
  bytes.foldl (fun n byte => n * 256 + byte.toNat) 0

/-- A 16-bit word as two bytes. -/
def wordBytes (w : UInt16) : Bytes := bigEndian 2 w.toNat

/-- A 32-bit word as four bytes. -/
def doubleWordBytes (w : UInt32) : Bytes := bigEndian 4 w.toNat

/-- A 64-bit word as eight bytes. -/
def quadWordBytes (w : UInt64) : Bytes := bigEndian 8 w.toNat

@[simp] theorem length_bigEndian (width n : Nat) :
    (bigEndian width n).length = width := by
  induction width with
  | zero => rfl
  | succ width ih => simp [bigEndian, ih]

/-! ### Reading -/

/-- A position in a byte string: how many bytes were read and those to come. -/
structure Cursor where
  /-- Bytes already read. -/
  offset : Nat
  /-- Bytes still to be read. -/
  rest : Bytes

/-- The start of a byte string. -/
def Cursor.start (bytes : Bytes) : Cursor := ⟨0, bytes⟩

/-- Errors that can say that the bytes ended at `offset` with `missing` more
bytes wanted. -/
class Truncation (ε : Type) where
  /-- The bytes ended too early. -/
  truncated (offset missing : Nat) : ε

/-- A computation that reads from a cursor and may fail with `ε`. -/
abbrev Reader (ε : Type) := StateT Cursor (Except ε)

namespace Reader

variable {ε α : Type}

/-- The offset of the next byte. -/
def offset : Reader ε Nat := return (← get).offset

/-- The next `n` bytes. A read that does not fit consumes nothing. -/
def take [Truncation ε] (n : Nat) : Reader ε Bytes := fun cursor =>
  let front := cursor.rest.take n
  if front.length = n then
    .ok (front, ⟨cursor.offset + n, cursor.rest.drop n⟩)
  else
    .error (Truncation.truncated cursor.offset (n - cursor.rest.length))

/-- The next `width` bytes as a number. -/
def word [Truncation ε] (width : Nat) : Reader ε Nat :=
  return ofBigEndian (← take width)

/-- The next byte. -/
def u8 [Truncation ε] : Reader ε UInt8 := return UInt8.ofNat (← word 1)

/-- The next two bytes, unsigned. -/
def u16 [Truncation ε] : Reader ε UInt16 := return UInt16.ofNat (← word 2)

/-- The next four bytes, unsigned. -/
def u32 [Truncation ε] : Reader ε UInt32 := return UInt32.ofNat (← word 4)

/-- The next eight bytes, unsigned. -/
def u64 [Truncation ε] : Reader ε UInt64 := return UInt64.ofNat (← word 8)

/-- The next byte, signed. -/
def i8 [Truncation ε] : Reader ε Int8 := return (← u8).toInt8

/-- The next two bytes, signed. -/
def i16 [Truncation ε] : Reader ε Int16 := return (← u16).toInt16

/-- The next four bytes, signed. -/
def i32 [Truncation ε] : Reader ε Int32 := return (← u32).toInt32

/-- The next eight bytes, signed. -/
def i64 [Truncation ε] : Reader ε Int64 := return (← u64).toInt64

/-- The results of `count` further runs of `read`, after those in `found`
(latest first). -/
def manyAfter (read : Reader ε α) : (count : Nat) → (found : List α) → Reader ε (List α)
  | 0, found => return found.reverse
  | count + 1, found => do
      let a ← read
      manyAfter read count (a :: found)

/-- The results of `count` runs of `read`, in order. -/
def many (read : Reader ε α) (count : Nat) : Reader ε (List α) :=
  manyAfter read count []

/-- Run a reader over a whole byte string, ignoring what it leaves unread. -/
def runOn (read : Reader ε α) (bytes : Bytes) : Except ε α :=
  (·.1) <$> read (Cursor.start bytes)

end Reader

end JvmOptimizer
