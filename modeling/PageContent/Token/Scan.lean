import PageContent.Token.Lexer

/-! # Scans

    Everything the lexer finds in a stream, in order.

    * **Scan**: the tokens and faults of a stream, up to its end or to a fault
      that the lexer cannot get past.
    * **Tokens**: the token list of a stream without faults; otherwise the
      first fault.
-/

namespace PageContent

/-- What a lexer finds. -/
inductive Scan where
  | token (t : Token) (rest : Scan)
  /-- A fault after which the lexer goes on. -/
  | fault (e : LexicalError) (rest : Scan)
  /-- The end of the stream. -/
  | finish (t : Token)
  /-- A fault at which the lexer stays; it is found again on every attempt. -/
  | stuck (e : LexicalError)
  deriving DecidableEq, Repr

namespace Scan

/-- What is still to be found from a lexer state on. -/
def ofLexer (l : Lexer) : Scan :=
  match h : l.next with
  | (.ok t, l') =>
    if hne : t.lexeme = .eof then .finish t
    else
      have := Lexer.remaining_next_lt h hne
      .token t (ofLexer l')
  | (.error e, l') =>
    if l'.remaining < l.remaining then .fault e (ofLexer l') else .stuck e
termination_by l.remaining

/-- What there is to find in a stream. -/
def ofBytes (bytes : List UInt8) : Scan :=
  ofLexer (Lexer.ofBytes bytes)

/-- The tokens, the end of the stream last, or the first fault. -/
def tokens : Scan → Except LexicalError (List Token)
  | .token t rest =>
    match rest.tokens with
    | .ok ts => .ok (t :: ts)
    | .error e => .error e
  | .finish t => .ok [t]
  | .fault e _ => .error e
  | .stuck e => .error e

end Scan

/-- The tokens of a stream, the end of the stream last. -/
def tokenize (bytes : List UInt8) : Except LexicalError (List Token) :=
  (Scan.ofBytes bytes).tokens

end PageContent
