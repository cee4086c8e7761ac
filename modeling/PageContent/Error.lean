import PageContent.Token.Basic
import PageContent.Token.Fault
import PageContent.Operator.Catalog

/-! # Errors

    Why a content stream is rejected.

    * **Causes** are data: what was expected, what was found, and where. The
      wording of every message is written down once, in this module.
    * **Four kinds**: no token (lexical), a token out of place (grammar), a
      wrong number of operands (arity), and an operand of a wrong type (type).
    * **Location**: every error has a span; its offset is the start of it.
-/

namespace PageContent

/-- The kinds of errors. -/
inductive ErrorKind where
  | lexical
  | grammar
  | arity
  | type
  deriving DecidableEq, Repr, Inhabited

namespace ErrorKind

def all : List ErrorKind :=
  [.lexical, .grammar, .arity, .type]

/-- The name of a kind. -/
def tag : ErrorKind → String
  | lexical => "Lexical"
  | grammar => "Grammar"
  | arity => "Arity"
  | type => "Type"

end ErrorKind

/-- What would have been allowed where a grammar error was found. -/
inductive Expectation where
  /-- A keyword of this production. -/
  | keywordOf (production : Production)
  /-- The end of an array. -/
  | arrayClose
  /-- A key of a dictionary or its end. -/
  | keyOrDictClose
  | operand
  /-- Any operator at all. -/
  | operator
  /-- An operator of the catalog. -/
  | contentOperator
  | pathConstruction
  | pathPainting
  /-- An operator that belongs to this level. -/
  | allowedAt (level : Level)
  | endOfStream
  /-- No deeper nesting than this, of things of some sort. -/
  | nestedAtMost (limit : Nat) (subject : String)
  deriving DecidableEq, Repr, Inhabited

/-- The wording of an expectation. -/
def Expectation.text : Expectation → String
  | keywordOf p => Operator.expected p
  | arrayClose => "']'"
  | keyOrDictClose => "a name key or '>>'"
  | operand => "an operand"
  | operator => "an operator"
  | contentOperator => "a content stream operator"
  | pathConstruction => "a path construction operator"
  | pathPainting => "a path painting operator"
  | allowedAt .page => "an operator allowed at page level"
  | allowedAt .text => "an operator allowed inside a text object"
  | endOfStream => "end of stream"
  | nestedAtMost limit subject => s!"at most {limit} nested {subject}"

/-- What was found instead. -/
inductive Finding where
  | lexeme (l : Lexeme)
  | nestingDepth (n : Nat)
  deriving DecidableEq, Repr, Inhabited

/-- The wording of a finding. -/
def Finding.text : Finding → String
  | lexeme l => l.describe
  | nestingDepth n => s!"nesting depth {n}"

/-- Why a content stream is rejected. -/
inductive ParseError where
  | lexical (error : LexicalError)
  | grammar (span : Span) (expected : Expectation) (found : Finding)
  | arity (span : Span) (keyword : String) (expected : Arity) (found : Nat)
  | type (span : Span) (keyword : String) (index : Nat) (expected : Demand) (found : OperandKind)
  deriving DecidableEq, Repr, Inhabited

namespace ParseError

def kind : ParseError → ErrorKind
  | lexical _ => .lexical
  | grammar .. => .grammar
  | arity .. => .arity
  | type .. => .type

/-- Where the error lies. A lexical error covers the one byte at which it was
    found, or the end of the stream. -/
def span : ParseError → Span
  | lexical e => ⟨e.position, e.position + 1⟩
  | grammar s _ _ => s
  | arity s _ _ _ => s
  | type s _ _ _ _ => s

def offset (e : ParseError) : Nat :=
  e.span.start

/-- A token out of place. -/
def misplaced (t : Token) (expected : Expectation) : ParseError :=
  .grammar t.span expected (.lexeme t.lexeme)

/-- The wording of an error. -/
def message : ParseError → String
  | lexical e => s!"Lexical error at byte {e.position}: {e.fault.message}"
  | grammar s expected found =>
    s!"Syntax error at byte {s.start}: expected {expected.text}, found {found.text}"
  | arity s keyword expected found =>
    s!"Operator '{keyword}' at byte {s.start} expects {expected.text} operand(s), found {found}"
  | type s keyword index expected found =>
    s!"Operand {index} of '{keyword}' at byte {s.start}: " ++
      s!"expected {expected.text}, found {found.text}"

/-- The error after `n` more bytes have been put in front of the stream. -/
def shift (n : Nat) : ParseError → ParseError
  | lexical e => .lexical ⟨e.position + n, e.fault⟩
  | grammar s expected found => .grammar (s.shift n) expected found
  | arity s keyword expected found => .arity (s.shift n) keyword expected found
  | type s keyword index expected found => .type (s.shift n) keyword index expected found

@[simp] theorem kind_shift (n : Nat) (e : ParseError) : (e.shift n).kind = e.kind := by
  cases e <;> rfl

/-- Shifting an error shifts its span. -/
theorem span_shift (n : Nat) (e : ParseError) : (e.shift n).span = e.span.shift n := by
  cases e with
  | lexical e =>
    show (⟨e.position + n, e.position + n + 1⟩ : Span) = ⟨e.position + n, e.position + 1 + n⟩
    rw [Nat.add_right_comm]
  | _ => rfl

end ParseError

end PageContent
