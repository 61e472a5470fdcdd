/-!
# Binary floating-point formats

The two floating-point types of the machine are binary interchange formats:
one sign bit, an exponent field and a fraction field. The library keeps such
numbers as their bit patterns, so that two constants are the same exactly when
their bits are.

A pattern stands for a `Datum`: a NaN, an infinity, or the exact number
`± significand · 2 ^ exponent`. Arithmetic happens on exact numbers, and
`Format.round` is the only place where a number is fitted to a format: nearest
first, a tie to the even significand, too large to infinity.
-/

namespace JvmOptimizer.Binary

/-- A binary interchange format: a sign bit, `exponentBits` of biased exponent
and `fractionBits` of fraction. -/
structure Format where
  /-- Width of the exponent field. -/
  exponentBits : Nat
  /-- Width of the fraction field. -/
  fractionBits : Nat

/-- The 32-bit format. -/
def single : Format := ⟨8, 23⟩

/-- The 64-bit format. -/
def double : Format := ⟨11, 52⟩

/-- What a bit pattern stands for. -/
inductive Datum
  /-- Not a number; the fraction field is its payload. -/
  | nan (negative : Bool) (payload : Nat)
  /-- An infinity. -/
  | infinite (negative : Bool)
  /-- The number `± significand · 2 ^ exponent`; zero keeps its sign. -/
  | finite (negative : Bool) (significand : Nat) (exponent : Int)

/-- `m · 2 ^ scale`, rounded to the nearest integer, a tie to the even one. -/
def roundScaled (m : Nat) : (scale : Int) → Nat
  | .ofNat up => m * Nat.pow 2 up
  | .negSucc down =>
      let unit := Nat.pow 2 (down + 1)
      let quotient := m / unit
      let twice := 2 * (m % unit)
      if unit < twice ∨ (unit = twice ∧ quotient % 2 = 1) then quotient + 1 else quotient

namespace Format

variable (f : Format)

/-- The weight of the sign bit. -/
def signWeight : Nat := Nat.pow 2 (f.exponentBits + f.fractionBits)

/-- The exponent of the last place of the smallest numbers. -/
def minExponent : Int := 2 - Nat.pow 2 (f.exponentBits - 1) - f.fractionBits

/-- The magnitude bits of infinity; larger magnitudes are NaNs. -/
def infinity : Nat := (Nat.pow 2 f.exponentBits - 1) * Nat.pow 2 f.fractionBits

/-- The payload bit that marks a NaN as quiet. -/
def quietBit : Nat := Nat.pow 2 (f.fractionBits - 1)

/-- The magnitude bits of a pattern: all but its sign. -/
def magnitude (bits : Nat) : Nat := bits % f.signWeight

/-- Is the sign bit of the pattern set? -/
def isNegative (bits : Nat) : Bool := bits / f.signWeight % 2 == 1

/-- The pattern with the given sign and magnitude. -/
def pack (negative : Bool) (magnitude : Nat) : Nat :=
  if negative then f.signWeight + magnitude else magnitude

/-- The pattern with its sign turned around. -/
def negate (bits : Nat) : Nat := f.pack (!f.isNegative bits) (f.magnitude bits)

/-- What a pattern stands for. -/
def decode (bits : Nat) : Datum :=
  let negative := f.isNegative bits
  let exponent := f.magnitude bits / Nat.pow 2 f.fractionBits
  let fraction := f.magnitude bits % Nat.pow 2 f.fractionBits
  if exponent = Nat.pow 2 f.exponentBits - 1 then
    if fraction = 0 then .infinite negative else .nan negative fraction
  else if exponent = 0 then
    .finite negative fraction f.minExponent
  else
    .finite negative (Nat.pow 2 f.fractionBits + fraction)
      (f.minExponent + (exponent - 1 : Nat))

/-- The quiet NaN with this sign and payload. -/
def nan (negative : Bool) (payload : Nat) : Nat :=
  f.pack negative (f.infinity + (payload ||| f.quietBit))

/-- The NaN of an operation that has no result. -/
def invalid : Nat := f.nan true 0

/-- The pattern nearest to `± significand · 2 ^ exponent`.

The last place of the result is the coarser of two: the one that leaves
`fractionBits + 1` significant bits, and the smallest one of the format. A
significand that rounds up to a power of two carries into the exponent field by
itself, and whatever reaches the magnitude of infinity stays there. -/
def round (negative : Bool) (significand : Nat) (exponent : Int) : Nat :=
  if significand = 0 then
    f.pack negative 0
  else
    let lastPlace :=
      max (exponent + significand.log2 - f.fractionBits) f.minExponent
    let rounded := roundScaled significand (exponent - lastPlace)
    let field := (lastPlace - f.minExponent).toNat * Nat.pow 2 f.fractionBits
    f.pack negative (min (field + rounded) f.infinity)

end Format

end JvmOptimizer.Binary
