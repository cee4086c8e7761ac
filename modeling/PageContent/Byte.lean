/-! # Bytes of a content stream

    The classes into which the syntax of content streams sorts the 256 byte
    values, and the notations in which a byte is written.

    * **Classes**: every byte is exactly one of blank, delimiter or regular.
    * **Latin-1**: a byte stands for the character of the same number, so a
      byte list and its Latin-1 text determine each other.
    * **Hexadecimal**: two digits, upper case when written, either case when
      read.
-/

namespace PageContent

namespace Byte

/-! ## Latin-1 -/

/-- The byte with the number of the character `c`, for characters below 256. -/
def ofChar (c : Char) : UInt8 :=
  c.toNat.toUInt8

/-- The character with the number of the byte `b`. -/
def toChar (b : UInt8) : Char :=
  Char.ofNat b.toNat

/-- The bytes of a text whose characters all lie below 256. -/
def ofChars (cs : List Char) : List UInt8 :=
  cs.map ofChar

/-- The text that has one character for each byte. -/
def latin1 (bytes : List UInt8) : String :=
  String.ofList (bytes.map toChar)

@[simp] theorem toNat_toChar (b : UInt8) : (toChar b).toNat = b.toNat := by
  have hb : b.toNat < 256 := b.toNat_lt
  have hv : Nat.isValidChar b.toNat := Or.inl (by omega)
  rw [toChar, Char.ofNat, dif_pos hv]
  rfl

@[simp] theorem ofChar_toChar (b : UInt8) : ofChar (toChar b) = b := by
  simp [ofChar]

/-- Latin-1 text gives its bytes back. -/
theorem ofChars_latin1 (bytes : List UInt8) :
    ofChars (latin1 bytes).toList = bytes := by
  simp [ofChars, latin1, Function.comp_def]

@[simp] theorem ofChars_append (a b : List Char) :
    ofChars (a ++ b) = ofChars a ++ ofChars b :=
  List.map_append

/-- What holds of the 256 byte values holds of every byte. -/
theorem forall_of_fin {P : UInt8 → Prop} (h : ∀ n : Fin 256, P (UInt8.ofNat n)) (b : UInt8) :
    P b := by
  have hb := h ⟨b.toNat, b.toNat_lt⟩
  rwa [UInt8.ofNat_toNat] at hb

/-! ## Classes -/

/-- Blanks: NUL, tab, line feed, form feed, carriage return and space. -/
def isBlank (b : UInt8) : Bool :=
  b == 0x00 || b == 0x09 || b == 0x0A || b == 0x0C || b == 0x0D || b == 0x20

/-- Delimiters: the four kinds of bracket, the slash and the percent sign. -/
def isDelimiter (b : UInt8) : Bool :=
  b == ofChar '(' || b == ofChar ')' || b == ofChar '<' || b == ofChar '>' ||
  b == ofChar '[' || b == ofChar ']' || b == ofChar '{' || b == ofChar '}' ||
  b == ofChar '/' || b == ofChar '%'

/-- Regular bytes are all the others; a run of them is one word. -/
def isRegular (b : UInt8) : Bool :=
  !isBlank b && !isDelimiter b

/-- The bytes that end a comment. -/
def isLineEnd (b : UInt8) : Bool :=
  b == 0x0A || b == 0x0D

def isDigit (b : UInt8) : Bool :=
  0x30 ≤ b && b ≤ 0x39

def isOctalDigit (b : UInt8) : Bool :=
  0x30 ≤ b && b ≤ 0x37

/-- The value of a decimal or octal digit. -/
def digitValue (b : UInt8) : Nat :=
  b.toNat - 0x30

/-- The graphic characters of ASCII, the space included. -/
def isPrintable (b : UInt8) : Bool :=
  0x20 ≤ b && b ≤ 0x7E

/-! ## Hexadecimal -/

/-- The value of a hexadecimal digit of either case. -/
def hexValue? (b : UInt8) : Option Nat :=
  if 0x30 ≤ b ∧ b ≤ 0x39 then some (b.toNat - 0x30)
  else if 0x41 ≤ b ∧ b ≤ 0x46 then some (b.toNat - 0x41 + 10)
  else if 0x61 ≤ b ∧ b ≤ 0x66 then some (b.toNat - 0x61 + 10)
  else none

/-- The upper-case hexadecimal digit of a value below 16. -/
def hexDigit (n : Nat) : Char :=
  Char.ofNat (if n < 10 then 0x30 + n else 0x41 + (n - 10))

/-- A byte as two upper-case hexadecimal digits. -/
def hex (b : UInt8) : List Char :=
  [hexDigit (b.toNat / 16), hexDigit (b.toNat % 16)]

/-- A byte as three octal digits. -/
def octal (b : UInt8) : List Char :=
  [hexDigit (b.toNat / 64), hexDigit (b.toNat / 8 % 8), hexDigit (b.toNat % 8)]

end Byte

end PageContent
