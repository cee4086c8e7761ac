import PageContent.Options

/-! # Corpora

    Collections of content streams with what is expected of them.

    * **Fixture**: a stream, the profile under which it is parsed, and the
      outcome that is expected.
    * **Corpus**: fixtures in the order in which they were added. No two of
      them have the same name; this is part of the type.
-/

namespace PageContent

/-- The categories of fixtures. -/
inductive FixtureCategory where
  /-- The smallest valid streams. -/
  | minimal
  /-- Common features of pages. -/
  | standard
  /-- Realistic pages with groups of every kind. -/
  | complex
  /-- Unusual syntax that is valid. -/
  | edgeCases
  /-- Streams that must be rejected. -/
  | malformed
  /-- Streams whose outcome depends on the profile. -/
  | profiles
  deriving DecidableEq, Repr, Inhabited

namespace FixtureCategory

def all : List FixtureCategory :=
  [.minimal, .standard, .complex, .edgeCases, .malformed, .profiles]

/-- The name of a category. -/
def tag : FixtureCategory → String
  | minimal => "Minimal"
  | standard => "Standard"
  | complex => "Complex"
  | edgeCases => "EdgeCases"
  | malformed => "Malformed"
  | profiles => "Profiles"

/-- The place of a category among all. -/
def rank (c : FixtureCategory) : Nat :=
  all.idxOf c

end FixtureCategory

/-- What is expected of a stream. -/
inductive Expected where
  /-- It is valid, with this number of operators if one is given. -/
  | valid (operators : Option Nat)
  /-- It is rejected with an error of this kind, at this offset if one is
      given. -/
  | invalid (kind : ErrorKind) (offset : Option Nat)
  deriving DecidableEq, Repr, Inhabited

/-- A content stream and what is expected of it. -/
structure Fixture where
  name : String
  category : FixtureCategory
  description : String
  content : List UInt8
  profile : Profile
  expected : Expected
  deriving DecidableEq, Repr, Inhabited

namespace Fixture

/-- A fixture under the default profile. -/
def new (name : String) (category : FixtureCategory) (description : String)
    (content : List UInt8) (expected : Expected) : Fixture :=
  ⟨name, category, description, content, .default, expected⟩

/-- Expect the error at this offset. A valid fixture stays as it is. -/
def pinnedAt (offset : Nat) (f : Fixture) : Fixture :=
  match f.expected with
  | .invalid kind _ => { f with expected := .invalid kind (some offset) }
  | .valid _ => f

def withProfile (profile : Profile) (f : Fixture) : Fixture :=
  { f with profile := profile }

/-- Whether the stream is expected to be valid. -/
def expectsValid (f : Fixture) : Bool :=
  match f.expected with
  | .valid _ => true
  | .invalid _ _ => false

end Fixture

/-- One more name that is not in use keeps the names distinct. -/
theorem Fixture.nodup_concat {fs : List Fixture} (hfs : (fs.map (·.name)).Nodup) {f : Fixture}
    (h : f.name ∉ fs.map (·.name)) : ((fs ++ [f]).map (·.name)).Nodup := by
  rw [List.map_append, List.nodup_append]
  refine ⟨hfs, by simp, ?_⟩
  rintro _ hmem _ hlast rfl
  rw [List.map_singleton, List.mem_singleton] at hlast
  exact h (hlast ▸ hmem)

/-- Fixtures with distinct names. -/
structure Corpus where
  fixtures : List Fixture
  distinct : (fixtures.map (·.name)).Nodup
  deriving DecidableEq, Repr

/-- Why a corpus cannot be had. -/
inductive CorpusError where
  /-- A name that is in use. -/
  | duplicate (name : String)
  /-- A document that describes no corpus. -/
  | document
  deriving DecidableEq, Repr

def CorpusError.message : CorpusError → String
  | duplicate name => "Duplicate fixture name: " ++ name
  | document => "Invalid corpus file"

namespace Corpus

def empty : Corpus :=
  ⟨[], by simp⟩

def names (c : Corpus) : List String :=
  c.fixtures.map (·.name)

def size (c : Corpus) : Nat :=
  c.fixtures.length

def isEmpty (c : Corpus) : Bool :=
  c.fixtures.isEmpty

/-- Add a fixture at the end, unless its name is in use. The answer is the error, if the
    fixture is refused, and the corpus after the call. -/
def add (c : Corpus) (f : Fixture) : Option CorpusError × Corpus :=
  if h : f.name ∈ c.names then (some (.duplicate f.name), c)
  else (none, ⟨c.fixtures ++ [f], Fixture.nodup_concat c.distinct h⟩)

/-- The corpus after a call, if nothing was refused. -/
def accepted : Option CorpusError × Corpus → Except CorpusError Corpus
  | (none, c) => .ok c
  | (some e, _) => .error e

instance : Coe (Option CorpusError × Corpus) (Except CorpusError Corpus) :=
  ⟨accepted⟩

/-- Add fixtures until a name is in use. -/
def addAll (c : Corpus) : List Fixture → Except CorpusError Corpus
  | [] => .ok c
  | f :: fs => do
    let c' ← (c.add f : Except CorpusError Corpus)
    c'.addAll fs

/-- The fixture of a name. -/
def get? (c : Corpus) (name : String) : Option Fixture :=
  c.fixtures.find? fun f => f.name = name

/-- The fixtures of a category. -/
def ofCategory (c : Corpus) (category : FixtureCategory) : List Fixture :=
  c.fixtures.filter fun f => f.category = category

/-- The number of fixtures of each category that has some. -/
def statistics (c : Corpus) : List (FixtureCategory × Nat) :=
  FixtureCategory.all.filterMap fun category =>
    match c.ofCategory category with
    | [] => none
    | fs => some (category, fs.length)

/-! ## Laws -/

/-- A refused call leaves the corpus as it was. -/
theorem add_of_mem {c : Corpus} {f : Fixture} (h : f.name ∈ c.names) :
    c.add f = (some (.duplicate f.name), c) :=
  dif_pos h

/-- An accepted fixture comes last. -/
theorem add_of_not_mem {c : Corpus} {f : Fixture} (h : f.name ∉ c.names) :
    c.add f = (none, ⟨c.fixtures ++ [f], Fixture.nodup_concat c.distinct h⟩) :=
  dif_neg h

end Corpus

end PageContent
