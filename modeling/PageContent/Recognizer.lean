import PageContent.Phrase

/-! # The recogniser

    Reads phrases and builds the parse tree, with an explicit stack.

    * **Sections** hold items: text objects, state blocks, marked content and
      compatibility sections. They nest, and the whole stream is around them.
    * **Parts** are items that are not complete: a path, an inline image, a
      section whose opening operator is still to come. They do not nest.
    * **One phrase, one step**: a step completes an invocation and puts it
      where it belongs, or fails. What a phrase is decided to be depends on its
      keyword alone; its operands are looked at afterwards.
    * **First error**: reading ends with the first failure, which leaves a feed
      from which a later attempt can go on.
-/

namespace PageContent

/-! ## What is open -/

/-- The groups that hold items. -/
inductive Section where
  | textObject
  | stateBlock
  | markedContent
  | compatibility
  deriving DecidableEq, Repr, Inhabited

namespace Section

def production : Section → Production
  | textObject => .textObject
  | stateBlock => .graphicsStateBlock
  | markedContent => .markedContent
  | compatibility => .compatibility

/-- The operators that open a section. -/
def opening : Section → Production
  | textObject => .beginText
  | stateBlock => .saveState
  | markedContent => .beginMarkedContent
  | compatibility => .beginCompatibility

/-- The operators that close a section. -/
def closing : Section → Production
  | textObject => .endText
  | stateBlock => .restoreState
  | markedContent => .endMarkedContent
  | compatibility => .endCompatibility

end Section

/-- What items can stand in: the whole stream, or a section. -/
inductive Enclosure where
  | stream
  | within (s : Section)
  deriving DecidableEq, Repr, Inhabited

/-- An open enclosure and its nodes so far, in reverse. Those of a section
    begin with its opening operator. -/
structure Frame where
  enclosure : Enclosure
  nodes : List Node
  deriving Repr

namespace Frame

def push (f : Frame) (n : Node) : Frame :=
  { f with nodes := n :: f.nodes }

/-- The group of the enclosure, with the nodes so far as its children. -/
def node (f : Frame) : Node :=
  match f.enclosure with
  | .stream => .ofChildren .content f.nodes.reverse
  | .within s => .ofChildren s.production f.nodes.reverse

/-- The level of items inside frames, the innermost first. Marked content and
    compatibility sections take the level of what they stand in. -/
def level : List Frame → Level
  | [] => .page
  | f :: outer =>
    match f.enclosure with
    | .stream => .page
    | .within .textObject => .text
    | .within .stateBlock => .page
    | .within .markedContent => level outer
    | .within .compatibility => level outer

/-- Whether a compatibility section is open. -/
def inCompatibility (frames : List Frame) : Bool :=
  frames.any fun f => f.enclosure == .within .compatibility

/-- The number of open sections. -/
def depth (frames : List Frame) : Nat :=
  frames.countP fun f => f.enclosure != .stream

/-- Whether the stream has had no item. Only then a glyph may be described. -/
def isFresh (f : Frame) : Bool :=
  f.enclosure == .stream && f.nodes.isEmpty

end Frame

/-- An item that is not complete. -/
inductive Part where
  /-- A section before its opening operator. -/
  | opening (s : Section)
  /-- A single operator of a production. -/
  | single (p : Production)
  /-- An operator outside the catalog. -/
  | undefined
  /-- A path with what has been drawn, in reverse, and its clipping operator. -/
  | path (drawn : List Invocation) (clip : Option Invocation)
  /-- An inline image before its first operator. -/
  | image
  | imageData (begin : Invocation)
  | imageEnd (begin data : Invocation)
  deriving Repr

namespace Part

/-- What a part waits for. -/
def expected : Part → Expectation
  | opening s => .keywordOf s.opening
  | single p => .keywordOf p
  | undefined => .operator
  | path [] _ => .pathConstruction
  | path _ _ => .pathPainting
  | image => .keywordOf .beginInlineImage
  | imageData _ => .keywordOf .inlineImageData
  | imageEnd _ _ => .keywordOf .endInlineImage

/-- Whether the part reads the next phrase whatever its keyword is. Others look
    for the keyword first. -/
def isCommitted : Part → Bool
  | path _ _ => false
  | _ => true

end Part

/-- A recogniser between two phrases. Frames have the innermost first. -/
inductive RecognizerState where
  /-- Between two items of the first frame. -/
  | between (top : Frame) (outer : List Frame)
  /-- Within an item that stands in the frames. -/
  | within (part : Part) (outer : List Frame)
  deriving Repr

/-- What a phrase leads to. -/
inductive Progress where
  | more (state : RecognizerState)
  | done (n : Node)

/-! ## The part that an operator begins -/

/-- What an operator is to the items around it. -/
inductive Role where
  /-- It begins this part. -/
  | begins (part : Part)
  /-- It can only stand in a path. -/
  | needsPath
  | outOfPlace

/-- The role of an operator between two items. Glyph descriptions are only
    allowed where `glyph` says so. -/
def Operator.role (op : Operator) (level : Level) (glyph : Bool) : Role :=
  let single := Role.begins (.single op.production)
  match op.category, level with
  | .pathPainting, _ => .needsPath
  | .clippingPath, _ => .needsPath
  -- both levels
  | .generalGraphicsState, _ => single
  | .color, _ => single
  | .textState, _ => single
  | .markedContent, _ =>
    if op.production = .beginMarkedContent then .begins (.opening .markedContent)
    else if op.production = .markedContentPoint then single
    else .outOfPlace
  | .compatibility, _ =>
    if op.production = .beginCompatibility then .begins (.opening .compatibility)
    else .outOfPlace
  -- page level
  | .pathConstruction, .page => .begins (.path [] none)
  | .specialGraphicsState, .page =>
    if op.production = .saveState then .begins (.opening .stateBlock)
    else if op.production = .concatMatrix then single
    else .outOfPlace
  | .textObject, .page =>
    if op.production = .beginText then .begins (.opening .textObject) else .outOfPlace
  | .inlineImage, .page =>
    if op.production = .beginInlineImage then .begins .image else .outOfPlace
  | .type3Font, .page => if glyph then single else .outOfPlace
  | .shadingPattern, .page => single
  | .xObject, .page => single
  -- inside a text object
  | .textPositioning, .text => single
  | .textShowing, .text => single
  | _, _ => .outOfPlace

/-! ## Steps -/

namespace Recognizer

/-- Put a complete item where it belongs. -/
def deliver (n : Node) : List Frame → Progress
  | [] => .done n
  | f :: outer => .more (.between (f.push n) outer)

/-- The node of a path. -/
def pathNode (drawn : List Invocation) (clip : Option Invocation) (paint : Invocation) : Node :=
  let construction := Node.ofChildren .pathConstruction (drawn.reverse.map .invocation)
  .ofChildren .pathObject (construction :: (clip.toList ++ [paint]).map .invocation)

/-- A section after its opening operator. -/
def openSection (limit : Nat) (s : Section) (call : Invocation) (outer : List Frame) :
    Except Failure Progress :=
  let guard := NestingGuard.new "groups" limit
  match { guard with depth := Frame.depth outer }.enter call.span with
  | .error e => .error ⟨e, none⟩
  | .ok _ => .ok (.more (.between ⟨.within s, [.invocation call]⟩ outer))

/-- A phrase in a path. -/
def stepPath (limit : Nat) (ph : Phrase) (outer : List Frame)
    (drawn : List Invocation) (clip : Option Invocation) : Except Failure Progress :=
  let refused := ph.refused (Part.path drawn clip).expected
  match ph.operator? with
  | none => .error refused
  | some op =>
    -- drawing goes on until the path is clipped
    if op.category = .pathConstruction ∧ clip = none then do
      let call ← ph.invocation limit op.production
      .ok (.more (.within (.path (call :: drawn) none) outer))
    else if drawn = [] then .error refused
    else if op.production = .clipping ∧ clip = none then do
      let call ← ph.invocation limit op.production
      .ok (.more (.within (.path drawn (some call)) outer))
    else if op.production = .pathPainting ∨ op.production = .endPath then do
      let call ← ph.invocation limit op.production
      .ok (deliver (pathNode drawn clip call) outer)
    else .error refused

/-- A phrase in a part. -/
def stepPart (limit : Nat) (ph : Phrase) (outer : List Frame) :
    Part → Except Failure Progress
  | .opening s => do
    let call ← ph.invocation limit s.opening
    openSection limit s call outer
  | .single p => do
    let call ← ph.invocation limit p
    .ok (deliver (.invocation call) outer)
  | .undefined => do
    let call ← ph.undefinedInvocation limit
    .ok (deliver (.invocation call) outer)
  | .path drawn clip => stepPath limit ph outer drawn clip
  | .image => do
    let call ← ph.invocation limit .beginInlineImage
    .ok (.more (.within (.imageData call) outer))
  | .imageData begin => do
    let call ← ph.invocation limit .inlineImageData
    .ok (.more (.within (.imageEnd begin call) outer))
  | .imageEnd begin data => do
    let call ← ph.invocation limit .endInlineImage
    .ok (deliver (.ofChildren .inlineImage ([begin, data, call].map .invocation)) outer)

/-- A phrase that begins an item. -/
def stepItem (o : Options) (ph : Phrase) (top : Frame) (outer : List Frame) :
    Except Failure Progress :=
  let frames := top :: outer
  match ph.operator? with
  | none =>
    if Frame.inCompatibility frames && o.undefinedOperators then
      stepPart o.maxNesting ph frames .undefined
    else .error (ph.refused .contentOperator)
  | some op =>
    match op.role (Frame.level frames) top.isFresh with
    | .begins part => stepPart o.maxNesting ph frames part
    | .needsPath => .error (ph.refused .pathConstruction)
    | .outOfPlace => .error (ph.refused (.allowedAt (Frame.level frames)))

/-- Whether the operator of a phrase closes an enclosure. -/
def closes (ph : Phrase) : Enclosure → Bool
  | .stream => false
  | .within s => ph.operator?.any (·.production = s.closing)

/-- A phrase in any state. -/
def step (o : Options) (ph : Phrase) : RecognizerState → Except Failure Progress
  | .within part outer => stepPart o.maxNesting ph outer part
  | .between top outer =>
    match top.enclosure with
    | .within s =>
      if closes ph (.within s) then do
        let call ← ph.invocation o.maxNesting s.closing
        .ok (deliver (top.push (.invocation call)).node outer)
      else stepItem o ph top outer
    | .stream => stepItem o ph top outer

/-! ## Ends -/

/-- The end of the stream between two items, with tokens in front of it. State
    blocks may be left open if the options say so. -/
def finishFrames (o : Options) (pending : List Token) (eof : Token) :
    Frame → List Frame → Except (ParseError × List Token) Node
  | top, outer =>
    match pending, top.enclosure with
    | first :: _, _ =>
      .error (.grammar (first.span.join eof.span) .operator (.lexeme eof.lexeme), pending)
    | [], .stream => .ok top.node
    | [], .within s =>
      if s = .stateBlock ∧ o.unclosedStates then
        match outer with
        | [] => .ok top.node
        | f :: outer' => finishFrames o pending eof (f.push top.node) outer'
      else .error (.misplaced eof (.keywordOf s.closing), [])
termination_by _ outer => outer.length

/-- The tokens that a committed part reads when no operator follows, up to what
    is in its place. -/
def readPending (limit : Nat) (pending : List Token) : OperandRun :=
  OperandReader.start.run limit pending

/-- The end of the stream in any state, with tokens in front of it. The failure
    says which of them are left. -/
def finish (o : Options) (pending : List Token) (eof : Token) :
    RecognizerState → Except (ParseError × List Token) Node
  | .between top outer => finishFrames o pending eof top outer
  | .within part _ =>
    if part.isCommitted then
      match readPending o.maxNesting pending with
      | .refused e left => .error (e, left)
      | .unfinished reader => .error ((reader.refuse eof).1, [])
      | .complete _ => .error (.misplaced eof part.expected, [])
    else .error (.misplaced eof part.expected, pending)

/-- A fault in any state, with tokens in front of it: the error, and the tokens
    that are left in front of the fault unless it has been met. -/
def meetFault (limit : Nat) (pending : List Token) (e : LexicalError) :
    RecognizerState → ParseError × Option (List Token)
  | .within part _ =>
    if part.isCommitted then
      match readPending limit pending with
      | .refused e' left => (e', some left)
      | _ => (.lexical e, none)
    else (.lexical e, none)
  | .between _ _ => (.lexical e, none)

/-- The tokens that stay when a fault is met: those that have only been looked
    past on the way to a keyword. -/
def keptTokens (pending : List Token) : RecognizerState → List Token
  | .within part _ => if part.isCommitted then [] else pending
  | .between _ _ => pending

/-! ## Runs -/

/-- Read phrases until the item that was begun is complete. The feed that comes
    with the answer is what has not been read. -/
def run (o : Options) : RecognizerState → Feed → Except (ParseError × Feed) (Node × Feed)
  | state, .phrase ph rest =>
    match step o ph state with
    | .ok (.more state') => run o state' rest
    | .ok (.done n) => .ok (n, rest)
    | .error f => .error (f.error, ph.leave f.left rest)
  | state, .finish pending eof =>
    match finish o pending eof state with
    | .ok n => .ok (n, .finish [] eof)
    | .error (e, left) => .error (e, .finish left eof)
  | state, .fault pending e rest =>
    match meetFault o.maxNesting pending e state with
    | (e', some left) => .error (e', .fault left e rest)
    | (e', none) => .error (e', rest.prepend (keptTokens pending state))
  | state, .stuck pending e =>
    match meetFault o.maxNesting pending e state with
    | (e', some left) => .error (e', .stuck left e)
    | (e', none) => .error (e', .stuck (keptTokens pending state) e)

/-- The longest run of drawing operators, which must not be empty. What has
    been drawn is in reverse. -/
def runConstruction (limit : Nat) (drawn : List Invocation) :
    Feed → Except (ParseError × Feed) (Node × Feed)
  | .phrase ph rest =>
    match ph.operator?.filter (·.category = .pathConstruction) with
    | some op =>
      match ph.invocation limit op.production with
      | .ok call => runConstruction limit (call :: drawn) rest
      | .error f => .error (f.error, ph.leave f.left rest)
    | none => stop ph.token (.phrase ph rest)
  | .finish pending eof => stop eof (.finish pending eof)
  | .fault pending e rest => .error (.lexical e, rest.prepend pending)
  | .stuck pending e => .error (.lexical e, .stuck pending e)
where
  /-- No more drawing operators: `t` comes instead. -/
  stop (t : Token) (feed : Feed) : Except (ParseError × Feed) (Node × Feed) :=
    if drawn = [] then .error (.misplaced t .pathConstruction, feed)
    else .ok (.ofChildren .pathConstruction (drawn.reverse.map .invocation), feed)

/-- The state in which a production is read on its own. -/
def start : Production → RecognizerState
  | .content => .between ⟨.stream, []⟩ []
  | .pathObject => .within (.path [] none) []
  | .textObject => .within (.opening .textObject) []
  | .graphicsStateBlock => .within (.opening .stateBlock) []
  | .markedContent => .within (.opening .markedContent) []
  | .compatibility => .within (.opening .compatibility) []
  | .inlineImage => .within .image []
  | .unknownOperator => .within .undefined []
  | p => .within (.single p) []

/-- Read one production from a feed. -/
def read (o : Options) (p : Production) (feed : Feed) :
    Except (ParseError × Feed) (Node × Feed) :=
  if p = .pathConstruction then runConstruction o.maxNesting [] feed
  else run o (start p) feed

/-- Nothing may be left. -/
def expectEnd (feed : Feed) : Except (ParseError × Feed) Unit :=
  match feed.head with
  | .ok t => if t.lexeme = .eof then .ok () else .error (.misplaced t .endOfStream, feed)
  | .error e => .error (.lexical e, feed.pastFault)

/-- Read one production, which must reach the end of the stream. -/
def readAll (o : Options) (p : Production) (feed : Feed) :
    Except (ParseError × Feed) (Node × Feed) :=
  match read o p feed with
  | .error failure => .error failure
  | .ok (n, rest) =>
    match expectEnd rest with
    | .error failure => .error failure
    | .ok () => .ok (n, rest)

end Recognizer

end PageContent
