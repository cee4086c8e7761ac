import PageContent.Token.Fault

/-! # Hex strings

    Strings in angle brackets: pairs of hexadecimal digits, with blanks
    anywhere between them.

    * **Padding**: a last digit without a partner is the high half of a byte.
    * **Faults**: a byte that is neither digit nor blank is reported at its own
      place, a missing end at the place of the string.
-/

namespace PageContent

namespace HexString

/-- The bytes that may stand inside the brackets. -/
def isInner (b : UInt8) : Bool :=
  (Byte.hexValue? b).isSome || Byte.isBlank b

/-- The bytes of a run of digit values, high half first. -/
def pairs : List Nat → List UInt8
  | [] => []
  | [high] => [(16 * high).toUInt8]
  | high :: low :: rest => (16 * high + low).toUInt8 :: pairs rest

/-- The contents of a string, for what stands inside its brackets. -/
def contents (inner : List UInt8) : List UInt8 :=
  pairs (inner.filterMap Byte.hexValue?)

/-- The longest run of bytes that may stand inside the brackets. -/
def inner (bytes : List UInt8) : List UInt8 :=
  bytes.takeWhile isInner

end HexString

end PageContent
