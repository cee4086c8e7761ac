import PageContent.Decimal.Rounding
import PageContent.Decimal.Basic

/-! # Binary floating-point numbers of 64 bits

    The reals of a content stream, as exact values.

    * **Units**: every finite magnitude is a whole number of units of
      `2 ^ -1074`, so arithmetic on magnitudes is arithmetic on `Nat`.
    * **Ranks**: the magnitudes in increasing order are numbered from 0; the
      last rank is infinity. The rank is also the low 63 bits of the
      interchange format.
    * **Rounding**: a quotient is rounded to the nearest magnitude, a tie to
      the even significand, and past the largest finite one to infinity.
-/

namespace PageContent

/-! ## Magnitudes -/

namespace Magnitude

/-- A unit is one half to this power. -/
@[irreducible] def precision : Nat := 1074

/-- How many units make up the number one. -/
def one : Nat := 2 ^ precision

theorem one_pos : 0 < one :=
  Nat.pow_pos (by decide)

/-- The rank of infinity. -/
def infinity : Nat := 2047 * 2 ^ 52

/-- Between this rank and the next, magnitudes are `2 ^ scale` units apart. -/
def scale (rank : Nat) : Nat :=
  rank / 2 ^ 52 - 1

/-- The magnitude of a rank, in units. -/
def units (rank : Nat) : Nat :=
  (rank - scale rank * 2 ^ 52) * 2 ^ scale rank

/-- The rank nearest to `p / q` units, as if magnitudes went on beyond every
    bound. With 53 significant bits the last bit is worth `2 ^ s` units, where
    `s` is read off the length of the whole part. -/
def nearest (p q : Nat) : Nat :=
  let s := (p / q).log2 - 52
  s * 2 ^ 52 + Decimal.roundDiv p (q * 2 ^ s)

/-- The magnitude nearest to `p / q` units, in units. -/
def rounded (p q : Nat) : Nat :=
  units (nearest p q)

end Magnitude

/-! ## Signed values -/

/-- A signed magnitude, infinities included, or the one value that is not a
    number. Zero has two signs. -/
inductive Binary64 where
  | number (negative : Bool) (rank : Fin (Magnitude.infinity + 1))
  | nan
  deriving DecidableEq, Repr

namespace Binary64

/-- The signed magnitude of a rank; ranks beyond infinity count as infinity. -/
def ofRank (negative : Bool) (rank : Nat) : Binary64 :=
  .number negative ⟨min rank Magnitude.infinity, by omega⟩

instance : Inhabited Binary64 := ⟨ofRank false 0⟩

/-- The value nearest to `p / q`, with a sign. -/
def ofRatio (negative : Bool) (p q : Nat) : Binary64 :=
  ofRank negative (Magnitude.nearest (p * Magnitude.one) q)

/-- The value nearest to a decimal, with a sign. -/
def ofDecimal (negative : Bool) (d : Decimal) : Binary64 :=
  ofRatio negative d.numerator d.denominator

/-- The value nearest to a whole number. -/
def ofInt (n : Int) : Binary64 :=
  ofRatio (n < 0) n.natAbs 1

/-- The interchange format: the sign bit above the rank. -/
def toBits : Binary64 → Nat
  | .number negative rank => (if negative then 2 ^ 63 else 0) + rank
  | .nan => 0x7FF8000000000000

/-- The value of 64 bits. All bit patterns above infinity are the same value. -/
def ofBits (bits : Nat) : Binary64 :=
  let rank := bits % 2 ^ 63
  if rank ≤ Magnitude.infinity then ofRank (bits / 2 ^ 63 % 2 == 1) rank else .nan

/-- The units of a finite value, without the sign. -/
def units? : Binary64 → Option Nat
  | .number _ rank => if rank < Magnitude.infinity then some (Magnitude.units rank) else none
  | .nan => none

def isNegative : Binary64 → Bool
  | .number negative _ => negative
  | .nan => false

/-- Whether the value is finite and whole. -/
def isWhole (x : Binary64) : Bool :=
  match x.units? with
  | some u => u % Magnitude.one == 0
  | none => false

/-- Equality of numbers: the two zeros are equal, and what is not a number
    equals nothing. -/
def agrees : Binary64 → Binary64 → Bool
  | .number s a, .number t b => a == b && (s == t || a.val == 0)
  | _, _ => false

end Binary64

end PageContent
