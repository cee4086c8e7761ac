import PageContent.Operand.Basic
import PageContent.Token.Name

/-! # Writing operands

    Operands in the syntax of content streams, so that reading the bytes gives
    the values back.

    * **Numbers**: integers in decimal; reals with a point, so that they read
      as reals.
    * **Strings** keep their form. In parentheses everything outside printable
      ASCII is escaped, in octal where there is no shorter escape.
    * **Containers** have one space between their members.
    * **Inline image data** is copied as it is, and shown in Latin-1 where text is
      wanted, inside a container for instance. All other operands are ASCII.
-/

namespace PageContent

namespace Operand

/-- One byte inside parentheses. -/
def writeLiteralByte (b : UInt8) : List UInt8 :=
  if b = Byte.ofChar '(' ∨ b = Byte.ofChar ')' ∨ b = Byte.ofChar '\\' then
    [Byte.ofChar '\\', b]
  else if b = 0x0A then Byte.ofChars ['\\', 'n']
  else if b = 0x0D then Byte.ofChars ['\\', 'r']
  else if b = 0x09 then Byte.ofChars ['\\', 't']
  else if Byte.isPrintable b then [b]
  else Byte.ofChars ('\\' :: Byte.octal b)

/-- A string of either form. -/
def writeString : StringForm → List UInt8 → List UInt8
  | .literal, bytes =>
    [Byte.ofChar '('] ++ bytes.flatMap writeLiteralByte ++ [Byte.ofChar ')']
  | .hex, bytes =>
    [Byte.ofChar '<'] ++ bytes.flatMap (fun b => Byte.ofChars (Byte.hex b)) ++ [Byte.ofChar '>']

/-- An integer in decimal. -/
def writeInteger (i : Int64) : List UInt8 :=
  Byte.ofChars (Decimal.wholeChars i.toInt)

mutual

/-- The characters of an operand, by their Latin-1 numbers. -/
def latin1 : Operand → List UInt8
  | integer i => writeInteger i
  | real x => Byte.ofChars x.operandChars
  | boolean true => Byte.ofChars ['t', 'r', 'u', 'e']
  | boolean false => Byte.ofChars ['f', 'a', 'l', 's', 'e']
  | null => Byte.ofChars ['n', 'u', 'l', 'l']
  | name n => Name.write n
  | string form bytes => writeString form bytes
  | array items => [Byte.ofChar '['] ++ latin1Items items ++ [Byte.ofChar ']']
  | dictionary entries =>
    Byte.ofChars ['<', '<'] ++ latin1Entries entries ++ Byte.ofChars [' ', '>', '>']
  | inlineData bytes => bytes

/-- Members of an array, one space between two of them. -/
def latin1Items : List Operand → List UInt8
  | [] => []
  | [x] => x.latin1
  | x :: rest => x.latin1 ++ [Byte.ofChar ' '] ++ latin1Items rest

/-- Entries of a dictionary, one space before each key and each value. -/
def latin1Entries : List (String × Operand) → List UInt8
  | [] => []
  | (key, x) :: rest =>
    [Byte.ofChar ' '] ++ Name.write key ++ [Byte.ofChar ' '] ++ x.latin1 ++ latin1Entries rest

end

/-- The operand as text. Inline image data is shown in Latin-1. -/
def text (x : Operand) : String :=
  Byte.latin1 x.latin1

/-- The bytes of an operand: inline image data as it is, all other operands as
    text. -/
def write : Operand → List UInt8
  | inlineData bytes => bytes
  | x => Utf8.encode x.text

end Operand

end PageContent
