import PageContent.Parse

/-! # Stream reports

    What there is to say about one content stream.

    * **Rejected streams**: the error, and nothing else.
    * **Valid streams**: how often each operator is used, how deep the groups
      nest, and warnings about what is valid but unusual.
    * **Nesting** counts text objects, state blocks, marked content and
      compatibility sections. Paths and inline images do not count.
-/

namespace PageContent

/-! ## Statistics -/

/-- How often each keyword occurs, sorted by keyword. -/
abbrev Usage := List (String × Nat)

/-- Count one more occurrence of a keyword. -/
def Usage.count (keyword : String) : Usage → Usage
  | [] => [(keyword, 1)]
  | (k, n) :: rest =>
    if keyword = k then (k, n + 1) :: rest
    else if keyword < k then (keyword, 1) :: (k, n) :: rest
    else (k, n) :: Usage.count keyword rest

/-- What is gathered in a walk through a tree. -/
structure Statistics where
  operators : Nat
  /-- The operators outside the catalog among them. -/
  undefined : Nat
  usage : Usage
  /-- The number of open groups. -/
  depth : Nat
  maxDepth : Nat
  deriving DecidableEq, Repr, Inhabited

namespace Statistics

def empty : Statistics :=
  ⟨0, 0, [], 0, 0⟩

/-- The groups that count as nesting. -/
def isNesting : Production → Bool
  | .graphicsStateBlock | .textObject | .markedContent | .compatibility => true
  | _ => false

/-- Take note of an event. -/
def note (s : Statistics) : Event → Statistics
  | .enter p _ =>
    if isNesting p then
      { s with depth := s.depth + 1, maxDepth := max s.maxDepth (s.depth + 1) }
    else s
  | .leave p => if isNesting p then { s with depth := s.depth - 1 } else s
  | .visit call =>
    { s with
      operators := s.operators + 1
      undefined := s.undefined + (if call.production = .unknownOperator then 1 else 0)
      usage := Usage.count call.keyword s.usage }

/-- The statistics of a stream. -/
def ofStream (s : ContentStream) : Statistics :=
  s.walk.foldl note empty

end Statistics

/-! ## Reports -/

/-- What is unusual about a valid stream. -/
inductive Warning where
  | undefinedOperators (count : Nat)
  | deepNesting (depth threshold : Nat)
  deriving DecidableEq, Repr

def Warning.text : Warning → String
  | undefinedOperators n => s!"{n} undefined operator(s) inside compatibility sections"
  | deepNesting depth threshold => s!"Group nesting depth {depth} exceeds {threshold}"

/-- What there is to say about a stream. -/
structure StreamReport where
  errors : List String
  warnings : List String
  operatorCount : Nat
  usage : Usage
  maxNesting : Nat
  deriving DecidableEq, Repr

namespace StreamReport

/-- Whether the stream is valid. -/
def isValid (r : StreamReport) : Bool :=
  r.errors.isEmpty

/-- The nesting above which a warning is given unless asked for otherwise. -/
def defaultThreshold : Nat := 16

/-- The warnings about a stream. -/
def warningsOf (s : Statistics) (threshold : Nat) : List Warning :=
  (if 0 < s.undefined then [.undefinedOperators s.undefined] else []) ++
  (if threshold < s.maxDepth then [.deepNesting s.maxDepth threshold] else [])

/-- The report on a stream that has been parsed, or on why it has not. -/
def ofResult (threshold : Nat) : Except ParseError ContentStream → StreamReport
  | .error e => ⟨[e.message], [], 0, [], 0⟩
  | .ok stream =>
    let s := Statistics.ofStream stream
    ⟨[], (warningsOf s threshold).map (·.text), s.operators, s.usage, s.maxDepth⟩

/-- The report on some bytes. -/
def ofBytes (o : Options) (threshold : Nat) (bytes : List UInt8) : StreamReport :=
  ofResult threshold (ContentStream.parse o bytes)

end StreamReport

end PageContent
