import JvmOptimizer.Binary.Format

/-!
# Shortest decimal text

A floating-point number is written with the fewest decimal digits that read
back as the same number, and of those the nearest to it. The numbers that read
back as `m · 2 ^ e` are an interval around it, whose ends belong to it exactly
when `m` is even (a tie rounds to the even significand).

On the grid of multiples of `10 ^ k` only the two neighbours of the number
matter: if any grid point lies in the interval, one of them does. So the search
goes from the coarsest grid to finer ones and stops at the first neighbour that
hits. Everything is exact natural arithmetic.
-/

namespace JvmOptimizer.Binary

/-- A decimal number `digits · 10 ^ scale`. -/
structure Decimal where
  /-- The digits, as a number. -/
  digits : Nat
  /-- The power of ten of the last digit. -/
  scale : Int

/-- The numbers that a format rounds to one of its positive numbers, and that
number itself, over a common denominator. -/
structure RoundingInterval where
  /-- Lower end. -/
  low : Nat
  /-- The number itself. -/
  value : Nat
  /-- Upper end. -/
  high : Nat
  /-- Common denominator. -/
  den : Nat
  /-- Do the ends round to the number as well? -/
  closed : Bool

/-- The interval around `significand · 2 ^ exponent`. Just above a power of two
the numbers below lie twice as close, unless they are the smallest ones. -/
def Format.roundingInterval (f : Format) (significand : Nat) (exponent : Int) :
    RoundingInterval :=
  let below :=
    if significand = Nat.pow 2 f.fractionBits ∧ f.minExponent < exponent then 1 else 2
  let up := Nat.pow 2 exponent.toNat
  { low := (4 * significand - below) * up
    value := 4 * significand * up
    high := (4 * significand + 2) * up
    den := 4 * Nat.pow 2 (-exponent).toNat
    closed := significand % 2 == 0 }

namespace RoundingInterval

variable (i : RoundingInterval)

/-- Does `n / den` lie in the interval, for the same denominator? -/
def contains (n : Nat) : Bool :=
  if i.closed then i.low ≤ n && n ≤ i.high else i.low < n && n < i.high

/-- The interval with every number divided by `10 ^ scale`. -/
def scaled (scale : Int) : RoundingInterval :=
  let up := Nat.pow 10 (-scale).toNat
  { i with
    low := i.low * up, value := i.value * up, high := i.high * up
    den := i.den * Nat.pow 10 scale.toNat }

/-- The neighbour of the number on the grid of integers that lies in the
interval: the nearer one if both do, the larger on a tie. -/
def integer? : Option Nat :=
  let down := i.value / i.den
  let up := down + 1
  match i.contains (down * i.den), i.contains (up * i.den) with
  | true, true =>
      if i.value - down * i.den < up * i.den - i.value then some down else some up
  | true, false => some down
  | false, true => some up
  | false, false => none

/-- The first grid, from `10 ^ scale` downward, with a point in the interval. -/
def decimalFrom : (grids : Nat) → (scale : Int) → Decimal
  | 0, scale => ⟨0, scale⟩
  | grids + 1, scale =>
      match (i.scaled scale).integer? with
      | some digits => ⟨digits, scale⟩
      | none => decimalFrom grids (scale - 1)

/-- The power of ten of the leading digit of the number. No number of the
formats here is below `10 ^ -400`. -/
def magnitude : Int :=
  if i.den ≤ i.value then
    ((Nat.toDigits 10 (i.value / i.den)).length : Int) - 1
  else
    -(((List.range 400).find? fun j => i.den ≤ i.value * Nat.pow 10 j).getD 400 : Nat)

/-- The shortest decimal in the interval, nearest to the number. Seventeen
digits tell any two numbers of the formats here apart. -/
def shortest : Decimal := i.decimalFrom 18 i.magnitude

end RoundingInterval

/-! ### Layout -/

/-- How a decimal is laid out as text. -/
structure DecimalStyle where
  /-- Leading digits from this power of ten on are written positionally. -/
  positionalFrom : Int
  /-- Leading digits from this power of ten on are written with an exponent. -/
  exponentFrom : Int
  /-- The text of a NaN. -/
  nan : String
  /-- The text of positive infinity. -/
  infinity : String

namespace DecimalStyle

variable (style : DecimalStyle)

/-- The digits of a positive number without trailing zeros. -/
private def significantDigits (n : Nat) : List Char :=
  ((Nat.toDigits 10 n).reverse.dropWhile (· == '0')).reverse

/-- Digits with the point after the leading `whole + 1` of them, and at least
one digit behind the point. -/
private def positional (digits : List Char) : (whole : Int) → List Char
  | .ofNat whole =>
      let padded := digits ++ List.replicate (whole + 1 - digits.length) '0'
      let fraction := padded.drop (whole + 1)
      padded.take (whole + 1) ++ '.' :: (if fraction.isEmpty then ['0'] else fraction)
  | .negSucc zeros => '0' :: '.' :: List.replicate zeros '0' ++ digits

/-- One digit, the others behind a point if there are any, and the exponent. -/
private def exponential (digits : List Char) (exponent : Int) : List Char :=
  let fraction := digits.drop 1
  digits.take 1 ++ (if fraction.isEmpty then [] else '.' :: fraction)
    ++ 'e' :: (toString exponent).toList

/-- The text of a positive decimal. -/
def decimal (d : Decimal) : List Char :=
  let all := Nat.toDigits 10 d.digits
  let leading := d.scale + all.length - 1
  let digits := significantDigits d.digits
  if style.positionalFrom ≤ leading ∧ leading < style.exponentFrom then
    positional digits leading
  else
    exponential digits leading

/-- The text of a number of a format. -/
def text (f : Format) (bits : Nat) : String :=
  let signed := fun (negative : Bool) (s : String) => if negative then "-" ++ s else s
  match f.decode bits with
  | .nan .. => style.nan
  | .infinite s => signed s style.infinity
  | .finite s m e =>
      if m = 0 then
        signed s "0.0"
      else
        signed s (String.ofList (style.decimal (f.roundingInterval m e).shortest))

end DecimalStyle

end JvmOptimizer.Binary
