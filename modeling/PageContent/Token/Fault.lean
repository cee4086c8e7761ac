import PageContent.Text.Quoted

/-! # Lexical faults

    Why no token can be read at a place, and the wording of each cause.
-/

namespace PageContent

/-- The causes of a lexical error. -/
inductive LexicalFault where
  /-- A word that starts like a number and is none. -/
  | malformedNumber (word : String)
  /-- A `>` that is not doubled and closes nothing. -/
  | strayAngle
  /-- A closing parenthesis or a brace. -/
  | illegalByte (byte : UInt8)
  | unterminatedLiteral
  | unterminatedHex
  /-- A byte in a hex string that is neither a digit nor blank. -/
  | notHexDigit (byte : UInt8)
  /-- A `#` in a name without two digits after it. -/
  | nameEscape
  | unterminatedData
  deriving DecidableEq, Repr, Inhabited

/-- The wording of a cause. -/
def LexicalFault.message : LexicalFault → String
  | .malformedNumber word => s!"Malformed number '{word}'"
  | .strayAngle => "Unexpected '>'"
  | .illegalByte b => "Illegal character " ++ Quoted.text b ++ " in token position"
  | .unterminatedLiteral => "Unterminated literal string"
  | .unterminatedHex => "Unterminated hex string"
  | .notHexDigit b => "Invalid character in hex string: " ++ Quoted.text b
  | .nameEscape => "Invalid hex escape in name"
  | .unterminatedData => "Unterminated inline image data"

/-- A cause and the byte position at which it was found. -/
structure LexicalError where
  position : Nat
  fault : LexicalFault
  deriving DecidableEq, Repr, Inhabited

end PageContent
