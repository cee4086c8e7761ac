import PageContent.Error

/-! # Options and nesting

    How strictly a content stream is read.

    * **Options**: how deep groups and containers may nest, whether undefined
      operators are tolerated in compatibility sections, and whether a state
      block may be left open at the end of the stream.
    * **Profiles**: the three named choices of options.
    * **Nesting guard**: a depth that may not exceed a limit. No limit is
      greater than 100, whatever the options say.
-/

namespace PageContent

/-! ## Options -/

/-- How strictly a content stream is read. -/
structure Options where
  /-- The greatest depth of groups, and of arrays and dictionaries. -/
  maxNesting : Nat
  /-- Tolerate undefined operators in compatibility sections. -/
  undefinedOperators : Bool
  /-- Close the state blocks that are open at the end of the stream. -/
  unclosedStates : Bool
  deriving DecidableEq, Repr, Inhabited

/-- The named choices of options. -/
inductive Profile where
  | default
  | strict
  | lenient
  deriving DecidableEq, Repr, Inhabited

/-- The greatest limit on nesting. -/
def deepestNesting : Nat := 100

namespace Profile

def all : List Profile :=
  [.default, .strict, .lenient]

/-- The name of a profile. -/
def tag : Profile → String
  | default => "Default"
  | strict => "Strict"
  | lenient => "Lenient"

/-- The options of a profile: `strict` tolerates no undefined operator, and
    `lenient` suits streams that are parts of a page. -/
def options : Profile → Options
  | default => ⟨28, true, false⟩
  | strict => ⟨28, false, false⟩
  | lenient => ⟨deepestNesting, true, true⟩

end Profile

/-! ## Nesting -/

/-- A depth below a limit. -/
structure NestingGuard where
  /-- What is nested, in the plural. -/
  subject : String
  limit : Nat
  depth : Nat
  deriving DecidableEq, Repr, Inhabited

namespace NestingGuard

/-- A guard at depth 0. -/
def new (subject : String) (limit : Nat) : NestingGuard :=
  ⟨subject, min limit deepestNesting, 0⟩

/-- Go one level deeper; what opens the level lies at `span`. -/
def enter (g : NestingGuard) (span : Span) : Except ParseError NestingGuard :=
  if g.depth + 1 ≤ g.limit then .ok { g with depth := g.depth + 1 }
  else .error (.grammar span (.nestedAtMost g.limit g.subject) (.nestingDepth (g.depth + 1)))

/-- Come back from one level; the outermost level has no way out. -/
def leave (g : NestingGuard) : NestingGuard :=
  { g with depth := g.depth - 1 }

/-- A level that was entered is left for the one before. -/
theorem leave_of_enter {g g' : NestingGuard} {span : Span} (h : g.enter span = .ok g') :
    g'.leave = g := by
  simp only [enter] at h
  split at h
  · cases h; rfl
  · exact absurd h (by simp)

/-- Entering keeps the depth below the limit. -/
theorem depth_le_of_enter {g g' : NestingGuard} {span : Span} (h : g.enter span = .ok g') :
    g'.depth ≤ g'.limit := by
  simp only [enter] at h
  split at h
  · next hle => cases h; exact hle
  · exact absurd h (by simp)

end NestingGuard

end PageContent
