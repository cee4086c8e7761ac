import PageContent.Decimal.Shortest

/-! # The text of a real

    * **Plain**: the shortest decimal that reads back, in positional notation, of
      two equally near ones the greater; `0` and `-0`; `inf`, `-inf` and `NaN`.
    * **With a point**: a finite whole number is written out exactly and ends
      in `.0`, so that it reads back as a real and not as an integer.
    * **Fixed places**: the exact value rounded to some places, a half going
      to the even neighbour.
-/

namespace PageContent

namespace Binary64

/-- The sign in front of a text. -/
def sign (x : Binary64) : List Char :=
  if x.isNegative then ['-'] else []

/-- The shortest decimal of the magnitude of a finite value. -/
def shortest? (halfway : Shortest.Halfway) : Binary64 → Option Decimal
  | .number _ rank =>
    if rank < Magnitude.infinity then
      some (if rank.val = 0 then ⟨0, 0⟩ else Shortest.ofRank halfway rank)
    else none
  | .nan => none

/-- The plain text. -/
def chars (x : Binary64) : List Char :=
  match x, x.shortest? .up with
  | .nan, _ => ['N', 'a', 'N']
  | _, some d => x.sign ++ d.chars
  | _, none => x.sign ++ ['i', 'n', 'f']

/-- The text with a point in finite values: whole numbers with all their
    digits, all others plain. -/
def operandChars (x : Binary64) : List Char :=
  match x.units? with
  | some u =>
    if u % Magnitude.one = 0 then
      x.sign ++ Decimal.charsWithPoint ⟨u / Magnitude.one, 0⟩
    else x.chars
  | none => x.chars

/-- The plain text as a string. -/
def text (x : Binary64) : String :=
  String.ofList x.chars

end Binary64

/-- `units` units of a binary magnitude with `places` digits behind the point. -/
def Magnitude.fixedText (places units : Nat) : String :=
  String.ofList
    (Decimal.chars ⟨Decimal.roundDiv (units * 10 ^ places) Magnitude.one, -(places : Int)⟩)

end PageContent
