import PageContent.Options

/-! # Reading operands

    From the tokens in front of an operator to the operands of the operator.

    * **Reader**: the operands that are complete, and the containers that are
      open. A container waits for an operand in a *hole*; only the innermost
      dictionary can wait for a key instead.
    * **One step per token**: a token completes an operand, opens or closes a
      container, or is refused.
    * **Nesting**: no more containers may be open than the limit allows.
-/

namespace PageContent

/-- A place in an open container that waits for an operand. What came before it
    in the container is kept in reverse. -/
inductive Hole where
  | item (opened : Span) (before : List Operand)
  | value (opened : Span) (before : List (String × Operand)) (key : String)
  deriving Repr

/-- A dictionary that waits for a key or for its end, entries in reverse. -/
structure OpenDict where
  opened : Span
  entries : List (String × Operand)
  deriving Repr

/-- A reader between two tokens. -/
structure OperandReader where
  /-- Complete operands with their spans, in reverse. -/
  done : List (Operand × Span)
  /-- The innermost hole comes first. -/
  holes : List Hole
  /-- The innermost container, if it is a dictionary that waits for a key. -/
  dict : Option OpenDict
  deriving Repr

/-- Why and where a reader stopped. -/
inductive OperandRun where
  /-- All tokens are used, and no container is open. -/
  | complete (operands : List (Operand × Span))
  /-- All tokens are used, and a container is open. -/
  | unfinished (reader : OperandReader)
  /-- A token is refused; these tokens are left. -/
  | refused (error : ParseError) (left : List Token)

/-- The operand that a token is by itself. -/
def Lexeme.scalar? : Lexeme → Option Operand
  | .integer i => some (.integer i)
  | .real x => some (.real x)
  | .boolean b => some (.boolean b)
  | .null => some .null
  | .name n => some (.name n)
  | .literal bytes => some (.string .literal bytes)
  | .hex bytes => some (.string .hex bytes)
  | .inlineData bytes => some (.inlineData bytes)
  | _ => none

namespace OperandReader

/-- The reader before the first token. -/
def start : OperandReader :=
  ⟨[], [], none⟩

/-- Whether no container is open. -/
def isIdle (r : OperandReader) : Bool :=
  r.holes.isEmpty && r.dict.isNone

/-- The number of open containers. -/
def depth (r : OperandReader) : Nat :=
  r.holes.length + (if r.dict.isSome then 1 else 0)

/-- Put an operand where one is waited for. -/
def deliver (r : OperandReader) (x : Operand) (span : Span) : OperandReader :=
  match r.holes with
  | [] => ⟨(x, span) :: r.done, [], none⟩
  | .item opened before :: outer => ⟨r.done, .item opened (x :: before) :: outer, none⟩
  | .value opened before key :: outer =>
    ⟨r.done, outer, some ⟨opened, (key, x) :: before⟩⟩

/-- The error at a token that cannot stand here, and whether the token is used
    up by it. -/
def refuse (r : OperandReader) (t : Token) : ParseError × Bool :=
  match r.dict, r.holes with
  | some _, _ => (.misplaced t .keyOrDictClose, true)
  | none, .item _ _ :: _ => (.misplaced t .arrayClose, false)
  | none, _ => (.misplaced t .operand, true)

/-- One more container, if the limit allows it. -/
def enter (limit : Nat) (r : OperandReader) (t : Token) (opened : OperandReader) :
    Except (ParseError × Bool) OperandReader :=
  let guard := NestingGuard.new "arrays or dictionaries" limit
  match { guard with depth := r.depth }.enter t.span with
  | .ok _ => .ok opened
  | .error e => .error (e, true)

/-- The reader after a token. -/
def step (limit : Nat) (r : OperandReader) (t : Token) :
    Except (ParseError × Bool) OperandReader :=
  match r.dict, t.lexeme with
  -- inside a dictionary, between two entries
  | some d, .dictClose =>
    .ok (r.deliver (.dictionary d.entries.reverse) (d.opened.join t.span))
  | some d, .name key => .ok ⟨r.done, .value d.opened d.entries key :: r.holes, none⟩
  | some _, _ => .error (r.refuse t)
  -- where an operand is waited for
  | none, .arrayOpen => r.enter limit t ⟨r.done, .item t.span [] :: r.holes, none⟩
  | none, .dictOpen => r.enter limit t ⟨r.done, r.holes, some ⟨t.span, []⟩⟩
  | none, .arrayClose =>
    match r.holes with
    | .item opened before :: outer =>
      .ok (deliver ⟨r.done, outer, none⟩ (.array before.reverse) (opened.join t.span))
    | _ => .error (r.refuse t)
  | none, lexeme =>
    match lexeme.scalar? with
    | some x => .ok (r.deliver x t.span)
    | none => .error (r.refuse t)

/-- Read tokens until one is refused. -/
def run (limit : Nat) : OperandReader → List Token → OperandRun
  | r, [] => if r.isIdle then .complete r.done.reverse else .unfinished r
  | r, t :: rest =>
    match r.step limit t with
    | .ok r' => run limit r' rest
    | .error (e, true) => .refused e rest
    | .error (e, false) => .refused e (t :: rest)

end OperandReader

end PageContent
