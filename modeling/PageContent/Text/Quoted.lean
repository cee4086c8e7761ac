import PageContent.Byte

/-! # Quoted characters

    A byte shown in a message: the Latin-1 character of the same number
    between single quotes.

    * **Short escapes** for NUL, tab, line feed, carriage return, the single
      quote and the backslash.
    * **Numbered escapes** `\u{..}`, in lower-case hexadecimal without
      leading zeros, for the other characters that do not print: the controls,
      the no-break space and the soft hyphen.
-/

namespace PageContent

namespace Quoted

/-- Whether the Latin-1 character of this number prints as itself. -/
def prints (b : UInt8) : Bool :=
  Byte.isPrintable b || (0xA1 ≤ b && b != 0xAD)

/-- The inside of the quotes. -/
def escaped (b : UInt8) : List Char :=
  if b = 0x00 then ['\\', '0']
  else if b = 0x09 then ['\\', 't']
  else if b = 0x0A then ['\\', 'n']
  else if b = 0x0D then ['\\', 'r']
  else if b = 0x27 ∨ b = 0x5C then ['\\', Byte.toChar b]
  else if prints b then [Byte.toChar b]
  else ['\\', 'u', Char.ofNat 0x7B] ++ Nat.toDigits 16 b.toNat ++ [Char.ofNat 0x7D]

/-- The byte between single quotes. -/
def text (b : UInt8) : String :=
  String.ofList ([Char.ofNat 0x27] ++ escaped b ++ [Char.ofNat 0x27])

end Quoted

end PageContent
