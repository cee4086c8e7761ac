import PageContent.Byte

/-! # UTF-8

    Writing text as bytes, and reading bytes as text when some of them may be
    no UTF-8 at all.

    * **Encoding**: a scalar value takes one to four bytes, high bits first.
    * **Decoding** never fails. Each longest piece that could begin a scalar
      value but is not followed by the rest of one reads as a single
      replacement character U+FFFD, and so does each byte that can begin
      nothing.
-/

namespace PageContent

namespace Utf8

/-! ## Encoding -/

/-- The bytes of one scalar value. -/
def encodeChar (c : Char) : List UInt8 :=
  let n := c.toNat
  if n < 0x80 then [n.toUInt8]
  else if n < 0x800 then [(0xC0 + n / 64).toUInt8, (0x80 + n % 64).toUInt8]
  else if n < 0x10000 then
    [(0xE0 + n / 4096).toUInt8, (0x80 + n / 64 % 64).toUInt8, (0x80 + n % 64).toUInt8]
  else
    [(0xF0 + n / 262144).toUInt8, (0x80 + n / 4096 % 64).toUInt8,
      (0x80 + n / 64 % 64).toUInt8, (0x80 + n % 64).toUInt8]

/-- The bytes of a text. -/
def encode (s : String) : List UInt8 :=
  s.toList.flatMap encodeChar

/-! ## Decoding -/

/-- The character that stands for bytes that are no UTF-8. -/
def replacement : Char := Char.ofNat 0xFFFD

/-- What the first byte of a sequence announces: how many bytes follow it, and
    between which bounds the first of these must lie. Overlong forms,
    surrogates and values above U+10FFFF are ruled out by these bounds, since
    they show in the second byte. -/
structure Lead where
  following : Nat
  low : UInt8
  high : UInt8
  deriving DecidableEq, Repr

/-- The lead bytes of sequences longer than one byte. -/
def lead? (b : UInt8) : Option Lead :=
  if 0xC2 ≤ b ∧ b ≤ 0xDF then some ⟨1, 0x80, 0xBF⟩
  else if b = 0xE0 then some ⟨2, 0xA0, 0xBF⟩
  else if b = 0xED then some ⟨2, 0x80, 0x9F⟩
  else if 0xE1 ≤ b ∧ b ≤ 0xEF then some ⟨2, 0x80, 0xBF⟩
  else if b = 0xF0 then some ⟨3, 0x90, 0xBF⟩
  else if 0xF1 ≤ b ∧ b ≤ 0xF3 then some ⟨3, 0x80, 0xBF⟩
  else if b = 0xF4 then some ⟨3, 0x80, 0x8F⟩
  else none

/-- Whether `b` continues a sequence after its second byte. -/
def isContinuation (b : UInt8) : Bool :=
  0x80 ≤ b && b ≤ 0xBF

/-- The payload of a lead byte that announces `following` further bytes. -/
def leadPayload (following : Nat) (b : UInt8) : Nat :=
  b.toNat % 2 ^ (6 - following)

/-- Append the six payload bits of a continuation byte. -/
def extend (n : Nat) (b : UInt8) : Nat :=
  n * 64 + b.toNat % 64

/-- The first character of a nonempty byte list that starts with `b`, and how
    many of the bytes after `b` belong to it. -/
def firstChar (b : UInt8) (rest : List UInt8) : Char × Nat :=
  if b < 0x80 then (Byte.toChar b, 0)
  else
    match lead? b, rest with
    | some l, c :: rest' =>
      if l.low ≤ c ∧ c ≤ l.high then
        let tail := (rest'.take (l.following - 1)).takeWhile isContinuation
        if tail.length = l.following - 1 then
          (Char.ofNat (tail.foldl extend (extend (leadPayload l.following b) c)), l.following)
        else (replacement, tail.length + 1)
      else (replacement, 0)
    | _, _ => (replacement, 0)

/-- The characters of a byte list. -/
def decodeChars : List UInt8 → List Char
  | [] => []
  | b :: rest => (firstChar b rest).1 :: decodeChars (rest.drop (firstChar b rest).2)
termination_by bytes => bytes.length

/-- The text of a byte list. -/
def decode (bytes : List UInt8) : String :=
  String.ofList (decodeChars bytes)

end Utf8

end PageContent
