import PageContent.Corpus.Document
import PageContent.Parse
import PageContent.Text.Preview

/-! # Conformance

    Replaying a corpus: every fixture is parsed under its profile, and the
    outcome is compared with what is expected.

    * **Mismatch**: what the parser did instead. A fixture without a mismatch
      has passed.
    * **Report**: counts of fixtures, in all and for each category, and the
      failures in the order of the corpus.
-/

namespace PageContent

/-! ## Single fixtures -/

/-- What the parser did where something else was expected. -/
inductive Mismatch where
  /-- Valid, but not with so many operators as expected. -/
  | operatorCount (actual expected : Nat)
  | rejected (e : ParseError)
  /-- Valid, with so many operators. -/
  | accepted (operators : Nat)
  | errorKind (expected : ErrorKind) (e : ParseError)
  | errorOffset (expected : Nat) (e : ParseError)
  deriving DecidableEq, Repr

namespace Mismatch

def text : Mismatch → String
  | operatorCount actual expected =>
    s!"valid, but with {actual} operators instead of {expected}"
  | rejected e => "rejected: " ++ e.message
  | accepted n => s!"accepted with {n} operators"
  | errorKind expected e =>
    s!"expected {expected.tag} error, got {e.kind.tag}: {e.message}"
  | errorOffset expected e =>
    s!"error at byte {e.offset} instead of {expected}: {e.message}"

/-- Compare an outcome with what is expected of it. -/
def between? : Expected → Except ParseError ContentStream → Option Mismatch
  | .valid (some n), .ok s =>
    if n = s.operatorCount then none else some (.operatorCount s.operatorCount n)
  | .valid none, .ok _ => none
  | .valid _, .error e => some (.rejected e)
  | .invalid _ _, .ok s => some (.accepted s.operatorCount)
  | .invalid kind offset, .error e =>
    if kind ≠ e.kind then some (.errorKind kind e)
    else
      match offset with
      | some n => if n = e.offset then none else some (.errorOffset n e)
      | none => none

end Mismatch

/-- The mismatch of a fixture, if it does not pass. -/
def Fixture.mismatch? (f : Fixture) : Option Mismatch :=
  Mismatch.between? f.expected (ContentStream.parse f.profile.options f.content)

/-! ## Reports -/

/-- A fixture that has not passed. -/
structure FixtureFailure where
  name : String
  category : FixtureCategory
  /-- The beginning of the stream. -/
  preview : String
  expected : Expected
  actual : Mismatch
  deriving DecidableEq, Repr

/-- How many fixtures of a category have passed and failed. -/
structure CategoryTally where
  category : FixtureCategory
  passed : Nat
  failed : Nat
  deriving DecidableEq, Repr

namespace CategoryTally

/-- Count one more fixture in tallies that are in the order of categories. -/
def count (category : FixtureCategory) (passes : Bool) : List CategoryTally → List CategoryTally
  | [] => [one]
  | t :: rest =>
    if t.category = category then
      (if passes then { t with passed := t.passed + 1 } else { t with failed := t.failed + 1 })
        :: rest
    else if category.rank < t.category.rank then one :: t :: rest
    else t :: count category passes rest
where
  /-- The tally of a single fixture. -/
  one : CategoryTally := if passes then ⟨category, 1, 0⟩ else ⟨category, 0, 1⟩

end CategoryTally

/-- The result of replaying a corpus. -/
structure ConformanceReport where
  total : Nat
  passed : Nat
  failures : List FixtureFailure
  byCategory : List CategoryTally
  deriving DecidableEq, Repr

namespace ConformanceReport

def empty : ConformanceReport :=
  ⟨0, 0, [], []⟩

/-- Take note of a fixture and its mismatch. -/
def record (r : ConformanceReport) (f : Fixture) (mismatch : Option Mismatch) :
    ConformanceReport :=
  let byCategory := CategoryTally.count f.category mismatch.isNone r.byCategory
  match mismatch with
  | none => ⟨r.total + 1, r.passed + 1, r.failures, byCategory⟩
  | some actual =>
    let failure : FixtureFailure :=
      ⟨f.name, f.category, Preview.text f.content, f.expected, actual⟩
    ⟨r.total + 1, r.passed, r.failures ++ [failure], byCategory⟩

/-- Replay fixtures in their order, all of them or those of one category. -/
def ofFixtures (category : Option FixtureCategory) (fs : List Fixture) : ConformanceReport :=
  let selected := fs.filter fun f => category.all (· = f.category)
  selected.foldl (fun r f => r.record f f.mismatch?) empty

/-- Replay the fixtures of a corpus, or those of one category. -/
def ofCorpus (category : Option FixtureCategory) (c : Corpus) : ConformanceReport :=
  ofFixtures category c.fixtures

/-- Whether every fixture has passed. -/
def isConformant (r : ConformanceReport) : Bool :=
  r.failures.isEmpty

/-- The share of fixtures that have passed, in percent, as a rank of a binary
    magnitude. Every step of the computation is rounded. -/
def passRank (r : ConformanceReport) : Nat :=
  if r.total = 0 then Magnitude.nearest (100 * Magnitude.one) 1
  else
    let passed := Magnitude.rounded (r.passed * Magnitude.one) 1
    let total := Magnitude.rounded (r.total * Magnitude.one) 1
    Magnitude.nearest (Magnitude.rounded (passed * Magnitude.one) total * 100) 1

/-- The share of fixtures that have passed, in percent. -/
def passRate (r : ConformanceReport) : Binary64 :=
  Binary64.ofRank false r.passRank

/-- A word in a column of ten characters. -/
def column (word : String) : String :=
  word.pushn ' ' (10 - word.length)

/-- The report as text. -/
def text (r : ConformanceReport) : String :=
  let rate := Magnitude.fixedText 1 (Magnitude.units r.passRank)
  let categories := r.byCategory.map fun t =>
    s!"  {column t.category.tag} {t.passed} passed, {t.failed} failed\n"
  let failures := r.failures.map fun f => s!"FAIL {f.name}: {f.actual.text}\n"
  "Content Stream Conformance\n" ++
  "==========================\n" ++
  s!"Fixtures:  {r.total}\n" ++
  s!"Passed:    {r.passed} ({rate}%)\n" ++
  s!"Failed:    {r.failures.length}\n" ++
  String.join categories ++ String.join failures

/-- The report as a JSON document. -/
def json (r : ConformanceReport) : Json :=
  .record [
    ("total", .nat r.total),
    ("passed", .nat r.passed),
    ("failures", .array (r.failures.map fun f => .record [
      ("name", .text f.name),
      ("category", .text f.category.tag),
      ("content", .text f.preview),
      ("expected", f.expected.json),
      ("actual", .text f.actual.text)])),
    ("by_category", .record (r.byCategory.map fun t =>
      (t.category.tag, .record [("passed", .nat t.passed), ("failed", .nat t.failed)])))]

end ConformanceReport

end PageContent
