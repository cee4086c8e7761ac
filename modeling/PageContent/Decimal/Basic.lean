/-! # Decimal numbers

    A decimal is a whole coefficient times a power of ten.

    * **Positional notation**: the coefficient, then as many zeros as the
      exponent says and no point; or as many places behind the point as a
      negative exponent says.
    * **Scientific notation**: one digit in front of the point, and the power of
      ten by which it has to be multiplied.
-/

namespace PageContent

-- powers of numbers are the core ones, whatever other powers are in scope
attribute [instance (2000), default_instance 20000] instPowNat

/-- The number `coefficient · 10 ^ exponent`. -/
structure Decimal where
  coefficient : Nat
  exponent : Int
  deriving DecidableEq, Repr, Inhabited

namespace Decimal

/-- The decimal is `numerator / denominator`. -/
def numerator (d : Decimal) : Nat :=
  d.coefficient * 10 ^ d.exponent.toNat

/-- A power of ten; 1 unless the exponent is negative. -/
def denominator (d : Decimal) : Nat :=
  10 ^ (-d.exponent).toNat

/-- The characters of the positional notation. -/
def chars (d : Decimal) : List Char :=
  let places := (-d.exponent).toNat
  let whole := Nat.toDigits 10 (d.numerator / d.denominator)
  if places = 0 then whole
  else whole ++ '.' :: (Nat.toDigits 10 (d.numerator % d.denominator)).leftpad places '0'

/-- The positional notation with a point: without places behind it, `.0` is
    appended. -/
def charsWithPoint (d : Decimal) : List Char :=
  if 0 ≤ d.exponent then d.chars ++ ['.', '0'] else d.chars

/-- The digits of the coefficient. -/
def digits (d : Decimal) : List Char :=
  Nat.toDigits 10 d.coefficient

/-- How many digits stand in front of the point; zeros right after the point
    count as less than none. -/
def magnitude (d : Decimal) : Int :=
  d.digits.length + d.exponent

/-- A whole number in decimal, with a sign if it is negative. -/
def wholeChars (n : Int) : List Char :=
  let digits := Nat.toDigits 10 n.natAbs
  if n < 0 then '-' :: digits else digits

/-- The characters of the scientific notation. The point is left out if no digit
    would follow it. -/
def scientificChars (d : Decimal) : List Char :=
  let fraction := d.digits.tail
  d.digits.take 1 ++ (if fraction.isEmpty then [] else '.' :: fraction) ++
    'e' :: wholeChars (d.magnitude - 1)

end Decimal

end PageContent
