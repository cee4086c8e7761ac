import PageContent.Span
import PageContent.Byte
import PageContent.Decimal.Text

/-! # Tokens

    What a content stream consists of once blanks and comments are left out.

    * **Lexeme**: what a token says, whatever its place.
    * **Token**: a lexeme with the span it was read from.
    * **Description**: the name under which a lexeme appears in messages.
-/

namespace PageContent

/-- What a token says. Names and operators are texts, strings and image data
    are bytes. -/
inductive Lexeme where
  | integer (value : Int64)
  | real (value : Binary64)
  | boolean (value : Bool)
  | null
  /-- A name without its slash, escapes resolved. -/
  | name (text : String)
  /-- The contents of a string in parentheses. -/
  | literal (bytes : List UInt8)
  /-- The contents of a string in angle brackets. -/
  | hex (bytes : List UInt8)
  | arrayOpen
  | arrayClose
  | dictOpen
  | dictClose
  /-- A bare word. Whether it names an operator is not decided here. -/
  | operator (keyword : String)
  /-- The bytes between `ID` and `EI`. -/
  | inlineData (bytes : List UInt8)
  | eof
  deriving DecidableEq, Repr, Inhabited

namespace Lexeme

/-- The lexeme in a message. -/
def describe : Lexeme → String
  | .integer i => "integer " ++ String.ofList (Decimal.wholeChars i.toInt)
  | .real x => "real " ++ x.text
  | .boolean true => "boolean true"
  | .boolean false => "boolean false"
  | .null => "null"
  | .name n => "name /" ++ n
  | .literal _ => "literal string"
  | .hex _ => "hex string"
  | .arrayOpen => "'['"
  | .arrayClose => "']'"
  | .dictOpen => "'<<'"
  | .dictClose => "'>>'"
  | .operator k => s!"'{k}'"
  | .inlineData d => s!"{d.length} bytes of inline image data"
  | .eof => "end of stream"

/-- The value of a number; an integer beyond 53 bits is rounded. -/
def number? : Lexeme → Option Binary64
  | .integer i => some (Binary64.ofInt i.toInt)
  | .real x => some x
  | _ => none

/-- Whether an operand run ends here. -/
def endsOperands : Lexeme → Bool
  | .operator _ => true
  | .eof => true
  | _ => false

end Lexeme

/-- A lexeme and where it was read. -/
structure Token where
  lexeme : Lexeme
  span : Span
  deriving DecidableEq, Repr, Inhabited

namespace Token

/-- The bytes of the token in the stream it comes from. -/
def raw (t : Token) (stream : List UInt8) : List UInt8 :=
  t.span.slice stream

/-- The token after `n` more bytes have been put in front of the stream. -/
def shift (n : Nat) (t : Token) : Token :=
  ⟨t.lexeme, t.span.shift n⟩

end Token

end PageContent
