/-
# Binary floating-point data

A datum of a binary interchange format is not a number, an infinity, negative
zero, or a finite value. Finite values are exact rationals, so arithmetic is
done exactly and rounded once, to the nearest value of the format with ties to
the even significand (`FloatFormat.round`). Negative zero is a datum of its own
because its encoding differs from that of zero, but the two are the same value
(`FloatDatum.same`).

Key definitions: `FloatDatum`, `FloatFormat.round`, `FloatFormat.bits`.
Key theorems: `FloatDatum.same_refl`, `FloatDatum.same_symm`, `FloatDatum.same_trans`.
-/

namespace EdgeFacts

-- Powers are those of the core library, whatever else is imported.
attribute [local instance (high)] instPowNat

/-- The integer nearest to `num / den`, a half going to the even neighbour. -/
def roundHalfEven (num den : Nat) : Nat :=
  let quotient := num / den
  let rest := num % den
  if 2 * rest < den then quotient
  else if den < 2 * rest then quotient + 1
  else quotient + quotient % 2

/-- The power of two with the given exponent. -/
def twoPow (e : Int) : Rat :=
  if 0 ≤ e then ((2 ^ e.toNat : Nat) : Rat) else mkRat 1 (2 ^ (-e).toNat)

/-- The distance of a rational from zero. -/
def magnitude (x : Rat) : Rat := if x < 0 then -x else x

/-- What a cell of a floating-point tensor holds. -/
inductive FloatDatum where
  | nan
  | inf (negative : Bool)
  | negZero
  | finite (x : Rat)
deriving DecidableEq, Repr, Inhabited

namespace FloatDatum

/-- The datum with negative zero read as zero. -/
def value : FloatDatum → FloatDatum
  | negZero => finite 0
  | d => d

/-- Two data hold the same value: not-a-number equals itself, and the zeros are equal. -/
def same (a b : FloatDatum) : Bool := a.value = b.value

theorem same_refl (a : FloatDatum) : a.same a = true := by simp [same]

theorem same_symm {a b : FloatDatum} (h : a.same b = true) : b.same a = true := by
  simp_all [same]

theorem same_trans {a b c : FloatDatum} (h : a.same b = true) (k : b.same c = true) :
    a.same c = true := by
  simp_all [same]

/-- Whether the sign of the datum is minus. -/
def isNegative : FloatDatum → Bool
  | nan => false
  | inf negative => negative
  | negZero => true
  | finite x => x < 0

/-- Whether the datum is one of the zeros. -/
def isZero : FloatDatum → Bool
  | negZero => true
  | finite x => x = 0
  | _ => false

/-- Zero with the given sign. -/
def zero (negative : Bool) : FloatDatum := if negative then negZero else finite 0

/-- The exact sum. -/
def add : FloatDatum → FloatDatum → FloatDatum
  | nan, _ => nan
  | _, nan => nan
  | inf a, inf b => if a = b then inf a else nan
  | inf a, _ => inf a
  | _, inf b => inf b
  | negZero, y => y
  | x, negZero => x
  | finite x, finite y => finite (x + y)

/-- The exact product. -/
def mul (a b : FloatDatum) : FloatDatum :=
  let negative := a.isNegative != b.isNegative
  match a.value, b.value with
  | nan, _ => nan
  | _, nan => nan
  | inf _, y => if y.isZero then nan else inf negative
  | x, inf _ => if x.isZero then nan else inf negative
  | finite x, finite y => if x * y = 0 then zero negative else finite (x * y)
  | _, _ => nan

/-- The larger of the datum and zero; not-a-number stays. -/
def clampBelow (a : FloatDatum) : FloatDatum :=
  if a.isNegative then finite 0 else a

end FloatDatum

/-- A binary interchange format: bits of significand (the hidden one included)
and bits of exponent. -/
structure FloatFormat where
  precision : Nat
  exponentBits : Nat
deriving DecidableEq, Repr

namespace FloatFormat

def half : FloatFormat := ⟨11, 5⟩
def single : FloatFormat := ⟨24, 8⟩
def double : FloatFormat := ⟨53, 11⟩

/-- The largest exponent of a finite value. -/
def maxExponent (f : FloatFormat) : Nat := 2 ^ (f.exponentBits - 1) - 1

/-- The exponent of the smallest positive value. -/
def minUnit (f : FloatFormat) : Int := 2 - (f.maxExponent : Int) - (f.precision : Int)

/-- The exponent of the largest power of two that is at most the positive `x`. -/
def binade (x : Rat) : Int :=
  let e := (x.num.natAbs.log2 : Int) - (x.den.log2 : Int)
  if twoPow e ≤ x then e else e - 1

/-- The exponent of the last place of a value of the format near the positive `x`. -/
def unit (f : FloatFormat) (x : Rat) : Int :=
  max (binade x - ((f.precision : Int) - 1)) f.minUnit

/-- The positive `x` as a whole number of its last places. -/
def significand (f : FloatFormat) (x : Rat) : Nat :=
  let scaled := x / twoPow (f.unit x)
  roundHalfEven scaled.num.natAbs scaled.den

/-- The value of the format nearest to `x`; what is too large becomes infinite. -/
def round (f : FloatFormat) (x : Rat) : FloatDatum :=
  if x = 0 then .finite 0
  else
    let m := f.significand (magnitude x)
    let y := (m : Rat) * twoPow (f.unit (magnitude x))
    if m = 0 then .zero (x < 0)
    else if twoPow (f.maxExponent + 1) ≤ y then .inf (x < 0)
    else .finite (if x < 0 then -y else y)

/-- The datum brought into the format. -/
def fit (f : FloatFormat) : FloatDatum → FloatDatum
  | .finite x => f.round x
  | d => d

/-- The encoding of a datum of the format. -/
def bits (f : FloatFormat) (d : FloatDatum) : Nat :=
  let sign := if d.isNegative then 2 ^ (f.exponentBits + f.precision - 1) else 0
  let ones := (2 ^ f.exponentBits - 1) * 2 ^ (f.precision - 1)
  match d with
  | .nan => ones + 2 ^ (f.precision - 2)
  | .inf _ => sign + ones
  | .negZero => sign
  | .finite x =>
    if x = 0 then 0
    else
      let places := (f.unit (magnitude x) - f.minUnit).toNat
      sign + places * 2 ^ (f.precision - 1) + f.significand (magnitude x)

/-- The number of hexadecimal digits of an encoding. -/
def hexDigits (f : FloatFormat) : Nat := (f.exponentBits + f.precision) / 4

end FloatFormat

end EdgeFacts
