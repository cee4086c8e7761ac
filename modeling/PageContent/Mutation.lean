import PageContent.Error
import PageContent.Token.Scan

/-! # Mutations

    Ways of breaking a valid content stream, each with the kind of error that
    it promises.

    A mutation works on the bytes: it finds a place with the help of the tokens
    and replaces the bytes there. It does not apply to a stream that has no such
    place, or that has a lexical error already.

    Which operators may lose or get an operand is listed here. These lists do not go
    by the catalog, and do not have all operators in it that would do.
-/

namespace PageContent

/-- A way of breaking a stream. -/
inductive Mutation where
  /-- Remove the last operand of the first operator in a list of twenty that take a
      fixed number of numbers. Other operators are passed over. -/
  | dropOperand
  /-- Put an operand in front of the first operator in a list of thirteen that take
      none. Other operators are passed over, even if they take none. -/
  | extraOperand
  /-- Replace the first operator by a word that is none. -/
  | unknownOperator
  /-- Cut the stream inside its first literal string. -/
  | truncateString
  /-- Append operands that no operator follows. -/
  | trailingOperands
  deriving DecidableEq, Repr

namespace Mutation

def all : List Mutation :=
  [.dropOperand, .extraOperand, .unknownOperator, .truncateString, .trailingOperands]

/-- The name of a mutation. -/
def tag : Mutation → String
  | dropOperand => "DropOperand"
  | extraOperand => "ExtraOperand"
  | unknownOperator => "UnknownOperator"
  | truncateString => "TruncateString"
  | trailingOperands => "TrailingOperands"

/-- The kind of error that a mutated stream has. -/
def promisedError : Mutation → ErrorKind
  | dropOperand => .arity
  | extraOperand => .arity
  | unknownOperator => .grammar
  | truncateString => .lexical
  | trailingOperands => .grammar

/-- The operators that may lose an operand. They take a fixed number of numbers; `M`,
    `i`, `TD`, `Tm`, `d0` and `d1` do so, too, but are not in the list. -/
def numericKeywords : List String :=
  ["m", "l", "c", "v", "y", "re", "w", "g", "G", "rg", "RG", "k", "K", "cm", "Td", "TL", "Tc",
    "Tw", "Tz", "Ts"]

/-- The operators that may get an operand. They take none; `f*`, `B*`, `b*`, `W`, `W*`,
    `T*`, `BI`, `BX` and `EX` take none, either, but are not in the list. -/
def nullaryKeywords : List String :=
  ["q", "Q", "S", "s", "f", "F", "B", "b", "n", "h", "BT", "ET", "EMC"]

/-- Put `replacement` in the place of a span. -/
def splice (bytes : List UInt8) (s : Span) (replacement : List UInt8) : List UInt8 :=
  bytes.take s.start ++ replacement ++ bytes.drop s.stop

/-- Whether a token is one of these operators. -/
def isOneOf (keywords : List String) (t : Token) : Bool :=
  match t.lexeme with
  | .operator k => keywords.contains k
  | _ => false

/-- The token before the first one that satisfies a condition. -/
def tokenBefore? (p : Token → Bool) : List Token → Option Token
  | a :: b :: rest =>
    if p a then none else if p b then some a else tokenBefore? p (b :: rest)
  | _ => none

/-- The mutated stream, for the tokens of the stream. -/
def edit? (bytes : List UInt8) (ts : List Token) : Mutation → Option (List UInt8)
  | dropOperand =>
    (tokenBefore? (isOneOf numericKeywords) ts).map fun t => splice bytes t.span []
  | extraOperand =>
    (ts.find? (isOneOf nullaryKeywords)).map fun t =>
      splice bytes ⟨t.span.start, t.span.start⟩ (Byte.ofChars ['0', ' '])
  | unknownOperator =>
    (ts.find? fun t => t.lexeme matches .operator _).map fun t =>
      splice bytes t.span (Byte.ofChars ['Z', 'z'])
  | truncateString =>
    -- the parenthesis stays, and at most one byte after it
    (ts.find? fun t => t.lexeme matches .literal _).map fun t =>
      bytes.take (min (t.span.start + 2) (t.span.stop - 1))
  | trailingOperands => some (bytes ++ Byte.ofChars ['\n', '1', ' ', '2', ' ', '3'])

/-- The mutated stream. Operands can be appended to any stream. -/
def mutate? (m : Mutation) (bytes : List UInt8) : Option (List UInt8) :=
  if m = .trailingOperands then m.edit? bytes []
  else
    match tokenize bytes with
    | .ok ts => m.edit? bytes ts
    | .error _ => none

end Mutation

end PageContent
