import PageContent.Span
import PageContent.Operand.Write
import PageContent.Operator.Catalog

/-! # Parse trees

    A content stream that has been read is a tree of groups, whose leaves are
    operators with their operands.

    * **Invocation**: an operator with its operands and its span, which runs
      from the first operand to the operator.
    * **Node**: an invocation, or a group of a production with its children.
      A group lies from the start of its first child to the end of its last.
    * **Content stream**: a root node of the production `content`.
-/

namespace PageContent

/-- An operator with the operands before it. -/
structure Invocation where
  production : Production
  keyword : String
  /-- Operators outside the catalog have no category. -/
  category : Option Category
  operands : List Operand
  span : Span
  deriving Repr, Inhabited

/-- A node of a parse tree. -/
inductive Node where
  | invocation (call : Invocation)
  | group (production : Production) (children : List Node) (span : Span)
  deriving Repr, Inhabited

/-- A content stream that has been read. -/
structure ContentStream where
  root : Node
  deriving Repr, Inhabited

namespace Invocation

/-- All operands as numbers, if they are. -/
def numbers? (call : Invocation) : Option (List Binary64) :=
  call.operands.mapM (·.number?)

/-- The bytes of an invocation: each operand and a space, then the keyword. -/
def write (call : Invocation) : List UInt8 :=
  call.operands.flatMap (fun x => x.write ++ [Byte.ofChar ' ']) ++ Utf8.encode call.keyword

/-- The invocation as text. -/
def text (call : Invocation) : String :=
  String.join (call.operands.map fun x => x.text ++ " ") ++ call.keyword

/-- Same operator and agreeing operands. -/
def callsSame (a b : Invocation) : Bool :=
  a.keyword == b.keyword && Operand.agreeAll a.operands b.operands

/-- Agreement in every field. -/
def agrees (a b : Invocation) : Bool :=
  a.production == b.production && a.category == b.category && a.span == b.span && a.callsSame b

end Invocation

namespace Node

def production : Node → Production
  | invocation call => call.production
  | group p _ _ => p

def span : Node → Span
  | invocation call => call.span
  | group _ _ s => s

/-- The children of a group; an invocation has none. -/
def children : Node → List Node
  | invocation _ => []
  | group _ cs _ => cs

def isGroup : Node → Bool
  | invocation _ => false
  | group _ _ _ => true

/-- The keyword of an invocation. -/
def keyword? : Node → Option String
  | invocation call => some call.keyword
  | group _ _ _ => none

/-- A group that lies where its children lie. -/
def ofChildren (p : Production) (children : List Node) : Node :=
  .group p children (Span.ofRun (children.map span))

/-- The node at the end of a path of child numbers. -/
def descendant? (n : Node) : List Nat → Option Node
  | [] => some n
  | i :: path =>
    match n.children[i]? with
    | some child => child.descendant? path
    | none => none

mutual

/-- Agreement of trees, spans included. -/
def agrees : Node → Node → Bool
  | invocation a, invocation b => a.agrees b
  | group p cs s, group q ds t => p == q && s == t && agreeAll cs ds
  | _, _ => false

def agreeAll : List Node → List Node → Bool
  | [], [] => true
  | c :: cs, d :: ds => c.agrees d && agreeAll cs ds
  | _, _ => false

end

end Node

namespace ContentStream

/-- The parts of the stream, in order. -/
def children (s : ContentStream) : List Node :=
  s.root.children

def isEmpty (s : ContentStream) : Bool :=
  s.children.isEmpty

def agrees (a b : ContentStream) : Bool :=
  a.root.agrees b.root

end ContentStream

end PageContent
