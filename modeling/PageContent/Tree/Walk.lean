import PageContent.Tree.Basic

/-! # Walking a tree

    Two ways through a parse tree in document order.

    * **Walk**: the recursive one. It lists an event for each group that is
      entered or left and for each invocation.
    * **Cursor**: the iterative one. It keeps the nodes that are still to come
      in a stack of levels and gives one invocation at a time.
    * **Serialisation**: the invocations of a tree with single spaces between
      them.
-/

namespace PageContent

/-! ## The recursive walk -/

/-- What a walk comes across. -/
inductive Event where
  | enter (production : Production) (span : Span)
  | visit (call : Invocation)
  | leave (production : Production)
  deriving Repr, Inhabited

namespace Event

/-- The invocation of a visit. -/
def call? : Event → Option Invocation
  | visit call => some call
  | _ => none

/-- An event in one line. -/
def text : Event → String
  | enter p s => "+" ++ p.name ++ " " ++ s.text
  | visit call => call.keyword ++ " " ++ call.span.text
  | leave p => "-" ++ p.name

end Event

namespace Node

mutual

/-- The events of a walk, in document order. -/
def walk : Node → List Event
  | invocation call => [.visit call]
  | group p cs s => .enter p s :: (walkAll cs ++ [.leave p])

def walkAll : List Node → List Event
  | [] => []
  | c :: cs => c.walk ++ walkAll cs

end

mutual

/-- The number of nodes of a tree. -/
def size : Node → Nat
  | invocation _ => 1
  | group _ cs _ => sizeAll cs + 1

def sizeAll : List Node → Nat
  | [] => 0
  | c :: cs => c.size + sizeAll cs

end

end Node

/-! ## The iterative walk -/

/-- The nodes that are still to come, the innermost level first. -/
structure Cursor where
  levels : List (List Node)
  deriving Repr, Inhabited

namespace Cursor

/-- A bound on the steps that are still to be done: two for each node and one
    for each level. -/
def work (c : Cursor) : Nat :=
  c.levels.foldr (fun nodes rest => 2 * Node.sizeAll nodes + 1 + rest) 0

/-- The next invocation, and the cursor after it. -/
def next? : Cursor → Option (Invocation × Cursor)
  | ⟨[]⟩ => none
  | ⟨[] :: outer⟩ => next? ⟨outer⟩
  | ⟨(.invocation call :: nodes) :: outer⟩ => some (call, ⟨nodes :: outer⟩)
  | ⟨(.group _ children _ :: nodes) :: outer⟩ => next? ⟨children :: nodes :: outer⟩
termination_by c => c.work
decreasing_by
  all_goals
    simp only [work, List.foldr_cons, Node.sizeAll, Node.size]
    omega

/-- An invocation that is given is done with. -/
theorem work_lt_of_next? {c c' : Cursor} {call : Invocation} (h : c.next? = some (call, c')) :
    c'.work < c.work := by
  fun_induction next? c with
  | case1 => simp at h
  | case2 outer ih =>
    have := ih h
    simp only [work, List.foldr_cons, Node.sizeAll] at *
    omega
  | case3 call' nodes outer =>
    simp only [Option.some.injEq, Prod.mk.injEq] at h
    obtain ⟨-, rfl⟩ := h
    simp only [work, List.foldr_cons, Node.sizeAll, Node.size]
    omega
  | case4 p children s nodes outer ih =>
    have := ih h
    simp only [work, List.foldr_cons, Node.sizeAll, Node.size] at *
    omega

/-- All invocations that are still to come. -/
def toList (c : Cursor) : List Invocation :=
  match h : c.next? with
  | none => []
  | some (call, c') =>
    have := work_lt_of_next? h
    call :: toList c'
termination_by c.work

end Cursor

namespace Node

/-- A cursor before the first invocation below a node. An invocation is its
    own only one. -/
def cursor : Node → Cursor
  | invocation call => ⟨[[.invocation call]]⟩
  | group _ cs _ => ⟨[cs]⟩

/-- The invocations of a tree, in document order. -/
def invocations (n : Node) : List Invocation :=
  n.cursor.toList

/-! ## Serialisation -/

/-- Invocations with single spaces between them. -/
def writeInvocations : List Invocation → List UInt8
  | [] => []
  | [call] => call.write
  | call :: rest => call.write ++ [Byte.ofChar ' '] ++ writeInvocations rest

/-- The bytes of a tree. -/
def write (n : Node) : List UInt8 :=
  writeInvocations n.invocations

end Node

namespace ContentStream

def invocations (s : ContentStream) : List Invocation :=
  s.root.invocations

/-- The number of operators in the stream. -/
def operatorCount (s : ContentStream) : Nat :=
  s.invocations.length

/-- The same operators with agreeing operands, wherever they lie. -/
def callsSame (a b : ContentStream) : Bool :=
  a.operatorCount == b.operatorCount &&
    (a.invocations.zip b.invocations).all fun (x, y) => x.callsSame y

/-- The events of a walk through the stream. -/
def walk (s : ContentStream) : List Event :=
  s.root.walk

/-- The bytes of the stream, written anew from its invocations. -/
def write (s : ContentStream) : List UInt8 :=
  s.root.write

end ContentStream

end PageContent
