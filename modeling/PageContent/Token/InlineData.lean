import PageContent.Byte

/-! # Inline image data

    The bytes after an `ID` operator. They have no structure, so only their end
    can be found: the first `EI` that stands on its own.

    * **Before** it there is a blank, which is not part of the data, or nothing
      at all.
    * **After** it there is a blank or the end of the stream.
-/

namespace PageContent

namespace InlineData

/-- Whether an `EI` with nothing but a blank or the end after it is in front. -/
def startsTerminator : List UInt8 → Bool
  | [] => false
  | [_] => false
  | e :: i :: rest =>
    e == Byte.ofChar 'E' && i == Byte.ofChar 'I' &&
      (match rest with
      | [] => true
      | b :: _ => Byte.isBlank b)

/-- The position of the first terminator. `mayStart` says whether one may
    stand at the front: after a blank, and where the data begins. -/
def terminator? (mayStart : Bool) : List UInt8 → Option Nat
  | [] => none
  | b :: rest =>
    if mayStart && startsTerminator (b :: rest) then some 0
    else (terminator? (Byte.isBlank b) rest).map (· + 1)

/-- The number of data bytes at the front: those before the terminator, without
    the blank that sets it apart. -/
def length? (bytes : List UInt8) : Option Nat :=
  (terminator? true bytes).map (· - 1)

/-- How many bytes set the data apart from the `ID` before them. -/
def separator : List UInt8 → Nat
  | [] => 0
  | b :: _ => if Byte.isBlank b then 1 else 0

end InlineData

end PageContent
