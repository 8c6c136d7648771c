/-
# Decimal forms of binary data

`FloatFormat.shortest` gives the decimal with the fewest digits that still
reads back as a given value of a binary format, and of those the nearest.
`Decimal.nearest` gives the nearest decimal with a fixed last place, a half going
to the even digit. `FloatDatum.text` writes a double: positional for
exponents from -4 to 15 and scientific outside, always with a mark that tells
it from an integer.

Key definitions: `Decimal`, `FloatFormat.shortest`, `FloatFormat.roundTo`, `Decimal.nearest`,
`FloatDatum.text`.
-/
import EdgeFacts.Number.Floating

namespace EdgeFacts

-- Powers are those of the core library, whatever else is imported.
attribute [local instance (high)] instPowNat

/-- The power of ten with the given exponent. -/
def tenPow (e : Int) : Rat :=
  if 0 ≤ e then ((10 ^ e.toNat : Nat) : Rat) else mkRat 1 (10 ^ (-e).toNat)

/-- The decimal digits of a number, most significant first. -/
def decimalDigits (n : Nat) : List Char := Nat.toDigits 10 n

/-- The number `coefficient · 10 ^ exponent`. -/
structure Decimal where
  coefficient : Nat
  exponent : Int
deriving DecidableEq, Repr

namespace Decimal

/-- The number a decimal stands for. -/
def toRat (d : Decimal) : Rat := (d.coefficient : Rat) * tenPow d.exponent

/-- Moves zeros at the end of the coefficient into the exponent, at most `fuel` of them. -/
def stripZeros : Nat → Decimal → Decimal
  | 0, d => d
  | fuel + 1, d =>
    if d.coefficient ≠ 0 ∧ d.coefficient % 10 = 0 then
      stripZeros fuel ⟨d.coefficient / 10, d.exponent + 1⟩
    else d

/-- The same number without zeros at the end of its coefficient. -/
def normalize (d : Decimal) : Decimal := d.stripZeros (decimalDigits d.coefficient).length

/-- The exponent of the leading digit. -/
def leading (d : Decimal) : Int := d.exponent + (decimalDigits d.coefficient).length - 1

/-- The exponent of the leading digit of the positive `x`. -/
def leadingOf (x : Rat) : Int :=
  let e := ((decimalDigits x.num.natAbs).length : Int) - (decimalDigits x.den).length
  if tenPow e ≤ x then e else e - 1

/-- The decimal nearest to `x ≥ 0` whose last digit has exponent `e`. -/
def nearest (x : Rat) (e : Int) : Decimal :=
  let scaled := x / tenPow e
  ⟨roundHalfEven scaled.num.natAbs scaled.den, e⟩

/-- The digits before and after the point, the latter without zeros at the end. -/
def positional (d : Decimal) : List Char × List Char :=
  let n := d.normalize
  if 0 ≤ n.exponent then (decimalDigits (n.coefficient * 10 ^ n.exponent.toNat), [])
  else
    let places := (-n.exponent).toNat
    let digits := decimalDigits n.coefficient
    let padded := List.replicate (places + 1 - digits.length) '0' ++ digits
    (padded.take (padded.length - places), padded.drop (padded.length - places))

/-- The leading digit, the digits after it, and the exponent of the leading digit. -/
def scientific (d : Decimal) : List Char × List Char × Int :=
  let n := d.normalize
  let digits := decimalDigits n.coefficient
  (digits.take 1, digits.drop 1, if n.coefficient = 0 then 0 else n.leading)

end Decimal

namespace FloatFormat

/-- Whether the positive `y` lies in the interval that rounds to the value `x`
of the format. The ends belong to it when the significand is even. -/
def readsAs (f : FloatFormat) (x y : Rat) : Bool :=
  let u := f.unit x
  let m := f.significand x
  let below :=
    if m = 2 ^ (f.precision - 1) ∧ f.minUnit < u then twoPow (u - 2) else twoPow (u - 1)
  let low := x - below
  let high := x + twoPow (u - 1)
  if m % 2 = 0 then low ≤ y && y ≤ high else low < y && y < high

/-- The neighbour of the positive value `x` that reads back as it, among the
decimals whose last digit has exponent `e`; the nearer one, if both do. -/
def neighbour? (f : FloatFormat) (x : Rat) (e : Int) : Option Decimal :=
  let floor := (x / tenPow e).floor.toNat
  [Decimal.nearest x e, ⟨floor, e⟩, ⟨floor + 1, e⟩].find? fun d => f.readsAs x d.toRat

/-- The decimal for the positive value `x` whose last digit has exponent `e`: one
that reads back as it, or else the nearest. -/
def roundTo (f : FloatFormat) (x : Rat) (e : Int) : Decimal :=
  (f.neighbour? x e).getD (Decimal.nearest x e)

/-- Tries ever finer decimal grids, from the one whose last digit has exponent
`e`. On each, only the neighbours of `x` can read back as `x`. -/
def shortestFrom (f : FloatFormat) (x : Rat) : Nat → Int → Decimal
  | 0, e => Decimal.nearest x e
  | fuel + 1, e => (f.neighbour? x e).getD (shortestFrom f x fuel (e - 1))

/-- The decimal with the fewest digits that reads back as the positive value `x`. -/
def shortest (f : FloatFormat) (x : Rat) : Decimal :=
  (f.shortestFrom x 17 (Decimal.leadingOf x)).normalize

end FloatFormat

/-- The digits, with zeros in front up to the given width. -/
def padZeros (width : Nat) (digits : List Char) : List Char :=
  List.replicate (width - digits.length) '0' ++ digits

/-- An exponent with its sign and at least the given number of digits. -/
def exponentText (width : Nat) (e : Int) : List Char :=
  (if e < 0 then '-' else '+') :: padZeros width (decimalDigits e.natAbs)

namespace FloatDatum

/-- A positive double in its shortest form, with `.0` or an exponent. -/
def positiveText (x : Rat) : List Char :=
  let d := FloatFormat.double.shortest x
  if -4 ≤ d.leading ∧ d.leading < 16 then
    match d.positional with
    | (whole, []) => whole ++ ['.', '0']
    | (whole, fraction) => whole ++ '.' :: fraction
  else
    match d.scientific with
    | (whole, [], e) => whole ++ 'e' :: exponentText 2 e
    | (whole, fraction, e) => whole ++ '.' :: fraction ++ 'e' :: exponentText 2 e

/-- A double as text that reads back as it. -/
def text : FloatDatum → String
  | nan => "nan"
  | inf negative => if negative then "-inf" else "inf"
  | negZero => "-0.0"
  | finite x =>
    if x = 0 then "0.0"
    else if x < 0 then String.ofList ('-' :: positiveText (-x))
    else String.ofList (positiveText x)

end FloatDatum

end EdgeFacts
