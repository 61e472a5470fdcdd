import JvmOptimizer.Binary.Format

/-!
# Floating-point arithmetic

Every operation decodes its operands, computes the exact result and rounds it
once. A NaN operand passes through (made quiet), and an operation without a
result, such as `0 / 0`, gives `Format.invalid`.

The remainder truncates: it is `x - y · q` for the quotient `q` cut off toward
zero, and has the sign of `x`.
-/

namespace JvmOptimizer.Binary.Format

variable (f : Format)

/-- The integer `± n`. -/
private def signedInt (negative : Bool) (n : Nat) : Int :=
  if negative then -(n : Int) else n

/-- The significand of `significand · 2 ^ exponent` over a smaller exponent. -/
private def align (significand : Nat) (exponent lower : Int) : Nat :=
  significand * Nat.pow 2 (exponent - lower).toNat

/-- The sum. An exact zero is negative only when both operands are. -/
def add (x y : Nat) : Nat :=
  match f.decode x, f.decode y with
  | .nan s p, _ => f.nan s p
  | _, .nan s p => f.nan s p
  | .infinite s, .infinite t => if s = t then x else f.invalid
  | .infinite _, .finite .. => x
  | .finite .., .infinite _ => y
  | .finite s m e, .finite t n k =>
      let lower := min e k
      let sum := signedInt s (align m e lower) + signedInt t (align n k lower)
      if sum = 0 then f.pack (s && t) 0 else f.round (decide (sum < 0)) sum.natAbs lower

/-- The difference. A NaN keeps its sign. -/
def sub (x y : Nat) : Nat :=
  match f.decode y with
  | .nan .. => f.add x y
  | _ => f.add x (f.negate y)

/-- The product. -/
def mul (x y : Nat) : Nat :=
  match f.decode x, f.decode y with
  | .nan s p, _ => f.nan s p
  | _, .nan s p => f.nan s p
  | .infinite s, .infinite t => f.pack (s != t) f.infinity
  | .infinite s, .finite t n _ => if n = 0 then f.invalid else f.pack (s != t) f.infinity
  | .finite s m _, .infinite t => if m = 0 then f.invalid else f.pack (s != t) f.infinity
  | .finite s m e, .finite t n k => f.round (s != t) (m * n) (e + k)

/-- The quotient. The division of significands is carried two bits past the
precision, and a lowest bit records whether anything was cut off, so the one
rounding that follows sees on which side of a tie the exact quotient lies. -/
def div (x y : Nat) : Nat :=
  match f.decode x, f.decode y with
  | .nan s p, _ => f.nan s p
  | _, .nan s p => f.nan s p
  | .infinite _, .infinite _ => f.invalid
  | .infinite s, .finite t _ _ => f.pack (s != t) f.infinity
  | .finite s _ _, .infinite t => f.pack (s != t) 0
  | .finite s m e, .finite t n k =>
      if n = 0 then
        if m = 0 then f.invalid else f.pack (s != t) f.infinity
      else
        let shift := f.fractionBits + 3 + n.log2
        let scaled := m * Nat.pow 2 shift
        let sticky := if scaled % n = 0 then 0 else 1
        f.round (s != t) (2 * (scaled / n) + sticky) (e - k - shift - 1)

/-- The truncating remainder. -/
def rem (x y : Nat) : Nat :=
  match f.decode x, f.decode y with
  | .nan s p, _ => f.nan s p
  | _, .nan s p => f.nan s p
  | .infinite _, _ => f.invalid
  | .finite .., .infinite _ => x
  | .finite s m e, .finite _ n k =>
      if n = 0 then
        f.invalid
      else
        let lower := min e k
        f.round s (align m e lower % align n k lower) lower

/-- The order of two numbers, none when one is a NaN. Magnitudes are ordered
like their bits, and the two zeros are equal. -/
def compare? (x y : Nat) : Option Ordering :=
  let key := fun bits => signedInt (f.isNegative bits) (f.magnitude bits)
  if f.infinity < f.magnitude x ∨ f.infinity < f.magnitude y then
    none
  else
    some (compare (key x) (key y))

/-- The number nearest to an integer. -/
def ofInt (n : Int) : Nat := f.round (decide (n < 0)) n.natAbs 0

/-- The integer part, pushed into the range from `low` to `high`; zero for a
NaN. -/
def toIntWithin (low high : Int) (x : Nat) : Int :=
  match f.decode x with
  | .nan .. => 0
  | .infinite s => if s then low else high
  | .finite s m e =>
      let whole := if 0 ≤ e then m * Nat.pow 2 e.toNat else m / Nat.pow 2 (-e).toNat
      max low (min high (signedInt s whole))

/-- The nearest number of another format. A NaN keeps its sign and the leading
bits of its payload. -/
def convert (g : Format) (x : Nat) : Nat :=
  match f.decode x with
  | .nan s p => g.nan s (p * Nat.pow 2 g.fractionBits / Nat.pow 2 f.fractionBits)
  | .infinite s => g.pack s g.infinity
  | .finite s m e => g.round s m e

end JvmOptimizer.Binary.Format
