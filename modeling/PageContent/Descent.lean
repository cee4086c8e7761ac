import PageContent.Parse

/-! # Recursive descent

    The grammar once more, with one function for each rule instead of a stack
    of frames. It answers every request as a session does.

    * **Buffer**: tokens are read from the bytes no further than somebody looks
      ahead, and are kept in a buffer. A position says which of them are used.
    * **Counters** say how many groups, containers and compatibility sections
      are open. A request that fails puts them back.
    * **Calls** either give a value or fail with an error, and change the state
      in both cases. A call that indexes out of the buffer, or takes from a
      counter at zero, or never ends, has no result at all.
    * **Recursive calls** go by a name that `letI` binds to the function itself, so that
      a definition keeps nothing of the place where it is written.
-/

namespace PageContent

/-! ## States -/

/-- A stream that is read by recursive descent. -/
structure Descent where
  lexer : Lexer
  /-- The tokens that have been read from the lexer. -/
  buffer : List Token
  /-- How many of them are used. -/
  position : Nat
  options : Options
  groups : NestingGuard
  containers : NestingGuard
  /-- How many compatibility sections are open. -/
  compatibility : Nat
  log : ErrorLog
  deriving Repr

namespace Descent

/-- The guard of groups, or of containers, under some options. -/
def groupGuard (o : Options) : NestingGuard :=
  NestingGuard.new "groups" o.maxNesting

def containerGuard (o : Options) : NestingGuard :=
  NestingGuard.new "arrays or dictionaries" o.maxNesting

/-- The start of a stream, reporting to a log. -/
def start (o : Options) (bytes : List UInt8) (log : ErrorLog) : Descent :=
  ⟨Lexer.ofBytes bytes, [], 0, o, groupGuard o, containerGuard o, 0, log⟩

/-! ## Calls -/

/-- A computation that may fail with an error, or have no result. -/
abbrev Call (α : Type) : Type :=
  ExceptT ParseError (StateT Descent Option) α

namespace Call

/-- No result. -/
def stop {α : Type} : Call α :=
  fun _ => none

/-- The member of a list at an index, which has to be within bounds. -/
def index {α : Type} (xs : List α) (i : Nat) : Call α :=
  match xs[i]? with
  | some x => pure x
  | none => stop

/-- One less than a number, which must not be zero. -/
def decrease : Nat → Call Nat
  | 0 => stop
  | n + 1 => pure n

end Call

/-! ## The buffer -/

/-- The next token of the lexer. -/
def nextToken : Call Token := fun d =>
  match d.lexer.next with
  | (.ok t, l) => some (.ok t, { d with lexer := l })
  | (.error e, l) => some (.error (.lexical e), { d with lexer := l })

/-- Read until there is a token at an index of the buffer, or the stream ends. -/
def fill (index : Nat) : Call Unit :=
  letI fill : Nat → Call Unit := by apply fill
  do
    let d ← get
    if d.buffer.length ≤ index ∧ ¬ (d.buffer.getLast?.any fun t => t.lexeme = .eof) then
      let t ← nextToken
      modify fun d => { d with buffer := d.buffer ++ [t] }
      fill index
    else
      return ()
partial_fixpoint

/-- The token `n` places ahead; past the end, the end of the stream. -/
def peekNth (n : Nat) : Call Token := do
  let index := (← get).position + n
  fill index
  let buffer := (← get).buffer
  let last ← Call.decrease buffer.length
  Call.index buffer (min index last)

def peek : Call Token :=
  peekNth 0

/-- The next token is used. -/
def proceed : Call Unit :=
  modify fun d => { d with position := d.position + 1 }

/-- The next token, which is used then unless it is the end of the stream. -/
def advance : Call Token := do
  let t ← peek
  if t.lexeme = .eof then
    return t
  else
    proceed
    return t

/-- The first operator `n` places ahead or further, or the end of the stream. -/
def peekKeywordFrom (n : Nat) : Call Token :=
  letI peekKeywordFrom : Nat → Call Token := by apply peekKeywordFrom
  do
    let t ← peekNth n
    if t.lexeme.endsOperands then
      return t
    else
      peekKeywordFrom (n + 1)
partial_fixpoint

/-- The operator that comes next, after its operands, or the end of the stream. -/
def peekKeyword : Call Token :=
  peekKeywordFrom 0

/-- What the catalog says about a token. -/
def operator? (t : Token) : Option Operator :=
  match t.lexeme with
  | .operator keyword => Operator.lookup? keyword
  | _ => none

/-- What the catalog says about the operator that comes next. -/
def peekOperator : Call (Option Operator) := do
  return operator? (← peekKeyword)

/-- Nothing may be left. -/
def expectEnd : Call Unit := do
  let t ← peek
  if t.lexeme = .eof then
    return ()
  else
    throw (.misplaced t .endOfStream)

/-! ## Operands -/

/-- One more open container, which begins at a place. -/
def enterContainer (opened : Span) : Call Unit := do
  match (← get).containers.enter opened with
  | .ok guard => modify fun d => { d with containers := guard }
  | .error e => throw e

def leaveContainer : Call Unit := do
  let depth ← Call.decrease (← get).containers.depth
  modify fun d => { d with containers := { d.containers with depth } }

mutual

/-- One operand and its place. -/
def operand : Call (Operand × Span) :=
  letI arrayItems : List Operand → Call (List Operand × Span) := by apply arrayItems
  letI dictEntries : List (String × Operand) → Call (List (String × Operand) × Span) := by
    apply dictEntries
  do
    let t ← advance
    match t.lexeme.scalar? with
    | some x => return (x, t.span)
    | none =>
      match t.lexeme with
      | .arrayOpen =>
        enterContainer t.span
        let (items, closed) ← arrayItems []
        leaveContainer
        return (.array items, t.span.join closed)
      | .dictOpen =>
        enterContainer t.span
        let (entries, closed) ← dictEntries []
        leaveContainer
        return (.dictionary entries, t.span.join closed)
      | _ => throw (.misplaced t .operand)
partial_fixpoint

/-- The members of an array after some of them, and the place of its end. -/
def arrayItems (items : List Operand) : Call (List Operand × Span) :=
  letI operand : Call (Operand × Span) := by apply operand
  letI arrayItems : List Operand → Call (List Operand × Span) := by apply arrayItems
  do
    let t ← peek
    match t.lexeme with
    | .arrayClose =>
      proceed
      return (items, t.span)
    | .operator _ | .eof | .dictClose => throw (.misplaced t .arrayClose)
    | _ =>
      let (x, _) ← operand
      arrayItems (items ++ [x])
partial_fixpoint

/-- The entries of a dictionary after some of them, and the place of its end. -/
def dictEntries (entries : List (String × Operand)) :
    Call (List (String × Operand) × Span) :=
  letI operand : Call (Operand × Span) := by apply operand
  letI dictEntries : List (String × Operand) → Call (List (String × Operand) × Span) := by
    apply dictEntries
  do
    let t ← advance
    match t.lexeme with
    | .dictClose => return (entries, t.span)
    | .name key =>
      let (x, _) ← operand
      dictEntries (entries ++ [(key, x)])
    | _ => throw (.misplaced t .keyOrDictClose)
partial_fixpoint

end

/-- All operands before the next operator, after some of them. -/
def operands (done : List (Operand × Span)) : Call (List (Operand × Span)) :=
  letI operands : List (Operand × Span) → Call (List (Operand × Span)) := by apply operands
  do
    let t ← peek
    if t.lexeme.endsOperands then
      return done
    else
      let x ← operand
      operands (done ++ [x])
partial_fixpoint

/-! ## Invocations -/

/-- The invocation that operands and the token after them are, which has to be an
    operator of a production. -/
def invoke (production : Production) (xs : List (Operand × Span)) (t : Token) :
    Call Invocation :=
  match t.lexeme with
  | .operator keyword =>
    match (Operator.lookup? keyword).filter (·.production = production) with
    | none => throw (.misplaced t (.keywordOf production))
    | some op =>
      match op.check (xs.map (·.1)) (xs.map (·.2)) t.span with
      | .error e => throw e
      | .ok () => return (Phrase.mk [] keyword t.span).invoke production (some op.category) xs
  | _ => throw (.misplaced t (.keywordOf production))

/-- Operands and one of the operators of a production. -/
def invocation (production : Production) : Call Invocation := do
  let xs ← operands []
  let t ← advance
  invoke production xs t

/-- The invocation that operands and any operator after them are. -/
def invokeUndefined (xs : List (Operand × Span)) (t : Token) : Call Invocation :=
  match t.lexeme with
  | .operator keyword => return (Phrase.mk [] keyword t.span).invoke .unknownOperator none xs
  | _ => throw (.misplaced t .operator)

/-- Operands and any operator. -/
def undefinedInvocation : Call Invocation := do
  let xs ← operands []
  let t ← advance
  invokeUndefined xs t

/-! ## Paths and images -/

/-- No more drawing operators; there must have been one. -/
def stopDrawing (drawn : List Invocation) : Call Node := do
  if drawn = [] then
    throw (.misplaced (← peekKeyword) .pathConstruction)
  else
    return .ofChildren .pathConstruction (drawn.map .invocation)

/-- The longest run of drawing operators, after some of them. -/
def construction (drawn : List Invocation) : Call Node :=
  letI construction : List Invocation → Call Node := by apply construction
  do
    match (← peekOperator).filter (·.category = .pathConstruction) with
    | some op =>
      let call ← invocation op.production
      construction (drawn ++ [call])
    | none => stopDrawing drawn
partial_fixpoint

/-- The clipping operator of a path, if it is next. -/
def clipping : Call (List Invocation) := do
  match (← peekOperator).filter (·.production = .clipping) with
  | some _ => return [← invocation .clipping]
  | none => return []

/-- The operator that paints or ends a path. -/
def painting : Call Invocation := do
  match (← peekOperator).filter (fun op =>
      op.production = .pathPainting ∨ op.production = .endPath) with
  | some op => invocation op.production
  | none => throw (.misplaced (← peekKeyword) .pathPainting)

def pathObject : Call Node := do
  let drawn ← construction []
  let clip ← clipping
  let paint ← painting
  return .ofChildren .pathObject (drawn :: (clip ++ [paint]).map .invocation)

def inlineImage : Call Node := do
  let begin ← invocation .beginInlineImage
  let data ← invocation .inlineImageData
  let fin ← invocation .endInlineImage
  return .ofChildren .inlineImage ([begin, data, fin].map .invocation)

/-! ## Items and groups -/

/-- One more open group, which begins at a place. -/
def enterGroup (opened : Span) : Call Unit := do
  match (← get).groups.enter opened with
  | .ok guard => modify fun d => { d with groups := guard }
  | .error e => throw e

def leaveGroup : Call Unit := do
  let depth ← Call.decrease (← get).groups.depth
  modify fun d => { d with groups := { d.groups with depth } }

def enterCompatibility : Call Unit :=
  modify fun d => { d with compatibility := d.compatibility + 1 }

def leaveCompatibility : Call Unit := do
  let compatibility ← Call.decrease (← get).compatibility
  modify fun d => { d with compatibility }

/-- Operands that no operator follows, in front of the end of the stream. -/
def dangling (eof : Token) : Call Node := do
  let first ← peek
  if first.lexeme = .eof then
    throw (.misplaced eof .contentOperator)
  else
    throw (.grammar (first.span.join eof.span) .operator (.lexeme eof.lexeme))

/-- An operator that is not in the catalog. -/
def undefinedItem (t : Token) : Call Node := do
  let d ← get
  if 0 < d.compatibility ∧ d.options.undefinedOperators then
    return .invocation (← undefinedInvocation)
  else
    throw (.misplaced t .contentOperator)

/-- Whether the stream ends here, given the operator that comes next. -/
def atEnd (keyword : Token) : Call Bool := do
  if keyword.lexeme = .eof then
    return (← peek).lexeme = .eof
  else
    return false

end Descent

/-- The level inside a section at a level. -/
def Section.inner : Section → Level → Level
  | .textObject, _ => .text
  | .stateBlock, _ => .page
  | .markedContent, outer => outer
  | .compatibility, outer => outer

/-- The production that a part is read as. -/
def Part.production : Part → Production
  | .opening s => s.production
  | .single p => p
  | .undefined => .unknownOperator
  | .path _ _ => .pathObject
  | .image => .inlineImage
  | .imageData _ => .inlineImage
  | .imageEnd _ _ => .inlineImage

namespace Descent

mutual

/-- The item that the next operator begins. -/
def item (level : Level) (glyph : Bool) : Call Node :=
  letI node : Level → Production → Call Node := by apply node
  do
    let t ← peekKeyword
    match t.lexeme with
    | .operator keyword =>
      match Operator.lookup? keyword with
      | none => undefinedItem t
      | some op =>
        match op.role level glyph with
        | .begins part => node level part.production
        | .needsPath => throw (.misplaced t .pathConstruction)
        | .outOfPlace => throw (.misplaced t (.allowedAt level))
    | _ => dangling t
partial_fixpoint

/-- The node of a production, for groups at a level. -/
def node (level : Level) (p : Production) : Call Node :=
  letI content : List Node → Call Node := by apply content
  letI group : Section → Level → Call Node := by apply group
  match p with
  | .content => content []
  | .pathObject => pathObject
  | .pathConstruction => construction []
  | .textObject => group .textObject level
  | .graphicsStateBlock => group .stateBlock level
  | .markedContent => group .markedContent level
  | .compatibility => group .compatibility level
  | .inlineImage => inlineImage
  | .unknownOperator => do return .invocation (← undefinedInvocation)
  | p => do return .invocation (← invocation p)
partial_fixpoint

/-- All items up to the end of the stream, after some of them. -/
def content (nodes : List Node) : Call Node :=
  letI item : Level → Bool → Call Node := by apply item
  letI content : List Node → Call Node := by apply content
  do
    let t ← peek
    if t.lexeme = .eof then
      return .ofChildren .content nodes
    else
      -- a glyph may be described by the first item only
      let n ← item .page nodes.isEmpty
      content (nodes ++ [n])
partial_fixpoint

/-- A section at a level. -/
def group (s : Section) (level : Level) : Call Node :=
  letI sectionAfter : Section → Level → Invocation → Call Node := by apply sectionAfter
  do
    let call ← invocation s.opening
    match s with
    | .compatibility =>
      enterCompatibility
      let n ← sectionAfter s (s.inner level) call
      leaveCompatibility
      return n
    | s => sectionAfter s (s.inner level) call
partial_fixpoint

/-- A section after its opening operator. -/
def sectionAfter (s : Section) (inner : Level) (call : Invocation) : Call Node :=
  letI sectionItems : Section → Level → List Node → Call (List Node) := by apply sectionItems
  do
    enterGroup call.span
    let nodes ← sectionItems s inner [.invocation call]
    leaveGroup
    return .ofChildren s.production nodes
partial_fixpoint

/-- The items of a section up to its end, after some of them. -/
def sectionItems (s : Section) (inner : Level) (nodes : List Node) : Call (List Node) :=
  letI item : Level → Bool → Call Node := by apply item
  letI sectionItems : Section → Level → List Node → Call (List Node) := by apply sectionItems
  do
    let t ← peekKeyword
    if (operator? t).any (·.production = s.closing) then
      return nodes ++ [.invocation (← invocation s.closing)]
    else if ← atEnd t then
      if s = .stateBlock ∧ (← get).options.unclosedStates then
        return nodes
      else
        throw (.misplaced t (.keywordOf s.closing))
    else
      let n ← item inner false
      sectionItems s inner (nodes ++ [n])
partial_fixpoint

end

/-! ## Requests -/

/-- The counters of another state. -/
def withCounters (d other : Descent) : Descent :=
  { d with
    groups := { d.groups with depth := other.groups.depth }
    containers := { d.containers with depth := other.containers.depth }
    compatibility := other.compatibility }

/-- Report the error of a call that fails, and put the counters back. -/
def attempt (x : Call Node) : Call Node := do
  let before ← get
  try x
  catch e =>
    modify fun d => { d.withCounters before with log := d.log.report e }
    throw e

/-- The answer to a request. -/
def answer : Request → Call Node
  | .part p => attempt (node .page p)
  | .whole p =>
    attempt do
      let n ← node .page p
      expectEnd
      return n

/-- The answers to some requests, each with the state after it. -/
def answers (d : Descent) : List Request → Option (List (Except ParseError Node × Descent))
  | [] => some []
  | r :: rs => do
    let (a, d') ← answer r d
    let others ← d'.answers rs
    return (a, d') :: others

end Descent

end PageContent
