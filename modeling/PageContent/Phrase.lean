import PageContent.Token.Scan
import PageContent.Operand.Read
import PageContent.Operator.Check
import PageContent.Tree.Basic

/-! # Phrases

    A phrase is an operator with the tokens before it, back to the operator
    before. Content streams are read phrase by phrase.

    * **Feed**: the phrases of a stream. Tokens that no operator follows are
      kept in front of what comes instead: a fault, or the end of the stream.
    * **Invocation**: a phrase whose tokens are operands that the operator
      accepts.
    * **Failure**: an error together with what it leaves of the phrase.
-/

namespace PageContent

/-- An operator and the tokens before it. -/
structure Phrase where
  pending : List Token
  keyword : String
  place : Span
  deriving Repr

/-- The phrases of a stream. -/
inductive Feed where
  | phrase (p : Phrase) (rest : Feed)
  /-- A fault; reading goes on after it. -/
  | fault (pending : List Token) (e : LexicalError) (rest : Feed)
  /-- The end of the stream. -/
  | finish (pending : List Token) (eof : Token)
  /-- A fault that is found again on every attempt. -/
  | stuck (pending : List Token) (e : LexicalError)
  deriving Repr

namespace Feed

/-- Put tokens in front of the first phrase. -/
def prepend (ts : List Token) : Feed → Feed
  | .phrase p rest => .phrase { p with pending := ts ++ p.pending } rest
  | .fault pending e rest => .fault (ts ++ pending) e rest
  | .finish pending eof => .finish (ts ++ pending) eof
  | .stuck pending e => .stuck (ts ++ pending) e

/-- The phrases of a scan. -/
def ofScan : Scan → Feed
  | .token t rest =>
    match t.lexeme with
    | .operator keyword => .phrase ⟨[], keyword, t.span⟩ (ofScan rest)
    | _ => (ofScan rest).prepend [t]
  | .fault e rest => .fault [] e (ofScan rest)
  | .finish t => .finish [] t
  | .stuck e => .stuck [] e

/-- The phrases of a stream. -/
def ofBytes (bytes : List UInt8) : Feed :=
  ofScan (Scan.ofBytes bytes)

/-- The next token, or the fault that is in its place. -/
def head : Feed → Except LexicalError Token
  | .phrase ⟨[], keyword, place⟩ _ => .ok ⟨.operator keyword, place⟩
  | .phrase ⟨t :: _, _, _⟩ _ => .ok t
  | .fault [] e _ => .error e
  | .fault (t :: _) _ _ => .ok t
  | .finish [] eof => .ok eof
  | .finish (t :: _) _ => .ok t
  | .stuck [] e => .error e
  | .stuck (t :: _) _ => .ok t

/-- The feed once a fault right in front has been met: it is not met again,
    unless the lexer is stuck at it. -/
def pastFault : Feed → Feed
  | .fault [] _ rest => rest
  | feed => feed

theorem prepend_nil (feed : Feed) : feed.prepend [] = feed := by
  cases feed <;> rfl

theorem prepend_prepend (ts us : List Token) (feed : Feed) :
    (feed.prepend us).prepend ts = feed.prepend (ts ++ us) := by
  cases feed <;> simp [prepend]

end Feed

/-- An error, and the tokens that are left in front of the operator of the
    phrase; nothing if the operator is used up as well. -/
structure Failure where
  error : ParseError
  left : Option (List Token)
  deriving Repr

namespace Phrase

/-- The operator as a token. -/
def token (p : Phrase) : Token :=
  ⟨.operator p.keyword, p.place⟩

/-- What the catalog says about the operator. -/
def operator? (p : Phrase) : Option Operator :=
  Operator.lookup? p.keyword

/-- A failure that leaves the phrase as it is. -/
def refused (p : Phrase) (expected : Expectation) : Failure :=
  ⟨.misplaced p.token expected, some p.pending⟩

/-- What is left of a feed after a failure in its first phrase. -/
def leave (p : Phrase) (left : Option (List Token)) (rest : Feed) : Feed :=
  match left with
  | some pending => .phrase { p with pending := pending } rest
  | none => rest

/-- The operands with their spans. -/
def operands (limit : Nat) (p : Phrase) : Except Failure (List (Operand × Span)) :=
  match OperandReader.start.run limit p.pending with
  | .complete operands => .ok operands
  | .refused e left => .error ⟨e, some left⟩
  | .unfinished reader =>
    let (e, used) := reader.refuse p.token
    .error ⟨e, if used then none else some []⟩

/-- The invocation of an operator with some operands. -/
def invoke (p : Phrase) (production : Production) (category : Option Category)
    (operands : List (Operand × Span)) : Invocation :=
  { production
    keyword := p.keyword
    category
    operands := operands.map (·.1)
    span := (operands.head?.map (·.2.join p.place)).getD p.place }

/-- The phrase as an invocation of one of the operators of a production. -/
def invocation (limit : Nat) (production : Production) (p : Phrase) :
    Except Failure Invocation :=
  match p.operands limit with
  | .error f => .error f
  | .ok operands =>
    match p.operator?.filter (·.production = production) with
    | none => .error ⟨.misplaced p.token (.keywordOf production), none⟩
    | some op =>
      match op.check (operands.map (·.1)) (operands.map (·.2)) p.place with
      | .error e => .error ⟨e, none⟩
      | .ok () => .ok (p.invoke production (some op.category) operands)

/-- The phrase as an invocation of an operator that nothing is known about. -/
def undefinedInvocation (limit : Nat) (p : Phrase) : Except Failure Invocation :=
  match p.operands limit with
  | .error f => .error f
  | .ok operands => .ok (p.invoke .unknownOperator none operands)

end Phrase

end PageContent
