import PageContent.Byte

/-! # Literal strings

    Strings in parentheses, as the sequence of their elements.

    * **Balance**: parentheses inside a string need no escape as long as they
      match; the string ends at the first one that closes more than was opened.
    * **Elements**: a plain byte, a line end or an escape. Each denotes some
      bytes, and the contents are the denotations in order.
    * **Line ends** of every form denote one line feed, and after a backslash
      nothing at all.
-/

namespace PageContent

namespace LiteralString

/-- How many bytes of a line end follow a carriage return. -/
def lineFeedAfter : List UInt8 → Nat
  | b :: _ => if b = 0x0A then 1 else 0
  | [] => 0

/-- The digits of an octal escape: one to three. -/
def octalDigits (bytes : List UInt8) : List UInt8 :=
  (bytes.take 3).takeWhile Byte.isOctalDigit

/-- The value of an octal escape; what exceeds a byte is dropped. -/
def octalValue (digits : List UInt8) : UInt8 :=
  (digits.foldl (fun n d => n * 8 + Byte.digitValue d) 0).toUInt8

/-- What follows a backslash: the bytes it denotes, and how many bytes it
    takes. A backslash in front of any other byte denotes that byte. -/
def escape : List UInt8 → List UInt8 × Nat
  | [] => ([], 0)
  | b :: rest =>
    if Byte.isOctalDigit b then
      let digits := octalDigits (b :: rest)
      ([octalValue digits], digits.length)
    else if b = 0x0D then ([], 1 + lineFeedAfter rest)
    else if b = 0x0A then ([], 1)
    else if b = Byte.ofChar 'n' then ([0x0A], 1)
    else if b = Byte.ofChar 'r' then ([0x0D], 1)
    else if b = Byte.ofChar 't' then ([0x09], 1)
    else if b = Byte.ofChar 'b' then ([0x08], 1)
    else if b = Byte.ofChar 'f' then ([0x0C], 1)
    else ([b], 1)

/-- The element that starts with `b`: the bytes it denotes, and how many bytes
    after `b` it takes. -/
def element (b : UInt8) (rest : List UInt8) : List UInt8 × Nat :=
  if b = Byte.ofChar '\\' then escape rest
  else if b = 0x0D then ([0x0A], lineFeedAfter rest)
  else ([b], 0)

/-- The contents of a string and the number of bytes up to and with its last
    parenthesis, for bytes after the first one. `depth` counts the inner
    parentheses that are open. There is no result if the string does not end. -/
def contents (depth : Nat) : List UInt8 → Option (List UInt8 × Nat)
  | [] => none
  | b :: rest =>
    if b = Byte.ofChar '(' then
      (contents (depth + 1) rest).map fun (value, width) => (b :: value, width + 1)
    else if b = Byte.ofChar ')' then
      match depth with
      | 0 => some ([], 1)
      | outer + 1 => (contents outer rest).map fun (value, width) => (b :: value, width + 1)
    else
      let (denoted, taken) := element b rest
      (contents depth (rest.drop taken)).map fun (value, width) =>
        (denoted ++ value, width + taken + 1)
termination_by bytes => bytes.length

end LiteralString

end PageContent
