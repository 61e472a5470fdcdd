import JvmOptimizer.Bytes

/-!
# Modified UTF-8

Text in class files is written by UTF-16 code units, one to three bytes each. A
character outside the basic plane is thus six bytes, two surrogates of three,
and the zero character is written with two bytes so that no byte is zero.

Reading is lenient: it looks at the first byte of a sequence for its length and
takes the low bits of the others as they are. The surrogates have to pair up.
-/

namespace JvmOptimizer.ModifiedUtf8

/-! ### UTF-16 -/

/-- The code units of a character. -/
def charUnits (c : Char) : List Nat :=
  let n := c.toNat
  if n < 0x10000 then
    [n]
  else
    [0xd800 + (n - 0x10000) / 0x400, 0xdc00 + (n - 0x10000) % 0x400]

/-- Is the unit the first of a surrogate pair? -/
def isHigh (unit : Nat) : Bool := 0xd800 ≤ unit && unit < 0xdc00

/-- Is the unit the second of a surrogate pair? -/
def isLow (unit : Nat) : Bool := 0xdc00 ≤ unit && unit < 0xe000

/-- The characters that code units spell, behind those already found (latest
first). A surrogate without its partner spells nothing. -/
def charsAfter? (found : List Char) : List Nat → Option (List Char)
  | [] => some found.reverse
  | [unit] =>
      if isHigh unit || isLow unit then
        none
      else
        some ((Char.ofNat unit :: found).reverse)
  | unit :: next :: rest =>
      if isHigh unit then
        if isLow next then
          let n := 0x10000 + (unit - 0xd800) * 0x400 + (next - 0xdc00)
          charsAfter? (Char.ofNat n :: found) rest
        else
          none
      else if isLow unit then
        none
      else
        charsAfter? (Char.ofNat unit :: found) (next :: rest)

/-! ### Bytes -/

/-- The bytes of a code unit. -/
def unitBytes (unit : Nat) : Bytes :=
  if 0 < unit ∧ unit < 0x80 then
    [UInt8.ofNat unit]
  else if unit < 0x800 then
    [UInt8.ofNat (0xc0 + unit / 64), UInt8.ofNat (0x80 + unit % 64)]
  else
    [UInt8.ofNat (0xe0 + unit / 4096), UInt8.ofNat (0x80 + unit / 64 % 64),
      UInt8.ofNat (0x80 + unit % 64)]

/-- The code units that bytes spell, behind those already found (latest
first). -/
def unitsAfter? (found : List Nat) : Bytes → Option (List Nat)
  | [] => some found.reverse
  | b :: rest =>
      let n := b.toNat
      if 0 < n ∧ n < 0x80 then
        unitsAfter? (n :: found) rest
      else if 0xc0 ≤ n ∧ n < 0xe0 then
        match rest with
        | b₁ :: rest => unitsAfter? ((n % 32 * 64 + b₁.toNat % 64) :: found) rest
        | [] => none
      else if 0xe0 ≤ n ∧ n < 0xf0 then
        match rest with
        | b₁ :: b₂ :: rest =>
            unitsAfter? ((n % 16 * 4096 + b₁.toNat % 64 * 64 + b₂.toNat % 64) :: found) rest
        | _ => none
      else
        none

/-- The bytes of a text. -/
def encode (text : String) : Bytes := (text.toList.flatMap charUnits).flatMap unitBytes

/-- The text that bytes spell. -/
def decode? (bytes : Bytes) : Option String := do
  let units ← unitsAfter? [] bytes
  let chars ← charsAfter? [] units
  return String.ofList chars

end JvmOptimizer.ModifiedUtf8
