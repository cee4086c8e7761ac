import PageContent.Token.Basic

/-! # Numerals

    The words that are numbers: an optional sign, digits, and optionally a
    point with digits after it. The digits on one side of the point may be
    missing, but not on both.

    * **Integers** have no point and fit into 64 bits with a sign.
    * **Reals** are all others, rounded to the nearest value. The sign of a
      zero is kept in a real and lost in an integer.
-/

namespace PageContent

namespace Numeral

/-- The bytes with which a numeral can start. -/
def isLead (b : UInt8) : Bool :=
  b == Byte.ofChar '+' || b == Byte.ofChar '-' || b == Byte.ofChar '.' || Byte.isDigit b

/-- The sign of a word, and the word without it. -/
def splitSign : List UInt8 → Bool × List UInt8
  | [] => (false, [])
  | b :: rest =>
    if b = Byte.ofChar '-' then (true, rest)
    else if b = Byte.ofChar '+' then (false, rest)
    else (false, b :: rest)

/-- What stands before the first point, and after it if there is one. -/
def splitPoint (word : List UInt8) : List UInt8 × Option (List UInt8) :=
  let isInner := fun b => b != Byte.ofChar '.'
  match word.dropWhile isInner with
  | [] => (word, none)
  | _ :: fraction => (word.takeWhile isInner, some fraction)

/-- The number that a run of decimal digits spells. -/
def value (digits : List UInt8) : Nat :=
  Nat.ofDigitChars 10 (digits.map Byte.toChar) 0

/-- A signed whole number that fits into 64 bits. -/
def int64? (negative : Bool) (n : Nat) : Option Int64 :=
  let signed : Int := if negative then -(n : Int) else n
  if -2 ^ 63 ≤ signed ∧ signed < 2 ^ 63 then some (Int64.ofInt signed) else none

/-- The number that a word spells. -/
def parse? (word : List UInt8) : Option Lexeme :=
  let (negative, unsigned) := splitSign word
  let (whole, fraction) := splitPoint unsigned
  let places := fraction.getD []
  if whole.all Byte.isDigit && places.all Byte.isDigit && !(whole ++ places).isEmpty then
    let real :=
      Lexeme.real (Binary64.ofDecimal negative ⟨value (whole ++ places), -(places.length : Int)⟩)
    match fraction, int64? negative (value whole) with
    | none, some i => some (.integer i)
    | _, _ => some real
  else none

end Numeral

end PageContent
