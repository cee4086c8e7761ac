import PageContent.Corpus.Basic
import PageContent.Json.Read
import PageContent.Json.Write

/-! # Corpus documents

    Corpora as JSON documents.

    * **Records** are objects. Their members may come in any order, members
      with other names are passed over, and no member may be repeated. An array
      of all the fields in their order is read as a record, too.
    * **Variants** are strings if they have no fields. Otherwise, and then with
      `null` for the fields if there are none, they are objects with the tag as
      the only key.
    * **Numbers** are whole, without sign, and below a bound.
-/

namespace PageContent

/-! ## Reading the parts of a document -/

namespace Json

/-- The members of a record with these field names, in the order of the names. A
    field that is missing has no value. -/
def fields? (names : List String) : Json → Option (List (Option Json))
  | .array items => if items.length = names.length then some (items.map some) else none
  | .object members => do
    let members ← (Json.object members).members?
    let known := (members.map (·.1)).filter names.contains
    if known.Nodup then some (names.map fun name => members.lookup name) else none
  | _ => none

/-- The tag of a variant, and its fields if it is not a string. -/
def variant? : Json → Option (String × Option Json)
  | .string literal => (unquote? literal).map (·, none)
  | .object [(key, value)] => (unquote? key).map (·, some value)
  | _ => none

/-- A variant without fields. -/
def unit? {α : Type} (tag : α → String) (all : List α) (x : Json) : Option α := do
  let (name, fields) ← x.variant?
  let value ← all.find? fun a => tag a = name
  match fields with
  | none => some value
  | some .null => some value
  | some _ => none

/-- A whole number below a bound. -/
def natBelow? (bound : Nat) (x : Json) : Option Nat :=
  x.nat?.filter (· < bound)

/-- The bound of counts and offsets. -/
def countBound : Nat := 2 ^ 64

/-- A count that may be missing or `null`. -/
def count? : Option Json → Option (Option Nat)
  | none => some none
  | some .null => some none
  | some x => (x.natBelow? countBound).map some

/-- An array of bytes. -/
def bytes? (x : Json) : Option (List UInt8) := do
  let items ← x.items?
  items.mapM fun item => (item.natBelow? 256).map Nat.toUInt8

end Json

/-! ## Outcomes -/

namespace Expected

def json : Expected → Json
  | .valid operators =>
    .record [("Valid", .record [("operator_count", .natOrNull operators)])]
  | .invalid kind offset =>
    .record [("Invalid",
      .record [("error", .text kind.tag), ("offset", .natOrNull offset)])]

def ofJson? (x : Json) : Option Expected :=
  match x.variant? with
  | some ("Valid", some body) =>
    match body.fields? ["operator_count"] with
    | some [operators] => (Json.count? operators).map .valid
    | _ => none
  | some ("Invalid", some body) =>
    match body.fields? ["error", "offset"] with
    | some [some kind, offset] => do
      let kind ← kind.unit? ErrorKind.tag ErrorKind.all
      let offset ← Json.count? offset
      some (.invalid kind offset)
    | _ => none
  | _ => none

end Expected

/-! ## Fixtures -/

namespace Fixture

def json (f : Fixture) : Json :=
  .record [
    ("name", .text f.name),
    ("category", .text f.category.tag),
    ("description", .text f.description),
    ("content", .array (f.content.map fun b => .nat b.toNat)),
    ("profile", .text f.profile.tag),
    ("expected", f.expected.json)]

def ofJson? (x : Json) : Option Fixture :=
  match x.fields? ["name", "category", "description", "content", "profile", "expected"] with
  | some [some name, some category, some description, some content, some profile,
      some expected] => do
    let name ← name.text?
    let category ← category.unit? FixtureCategory.tag FixtureCategory.all
    let description ← description.text?
    let content ← content.bytes?
    let profile ← profile.unit? Profile.tag Profile.all
    let expected ← Expected.ofJson? expected
    some ⟨name, category, description, content, profile, expected⟩
  | _ => none

end Fixture

/-! ## Corpora -/

namespace Corpus

def json (c : Corpus) : Json :=
  .record [("fixtures", .array (c.fixtures.map (·.json)))]

/-- The document of a corpus. -/
def document (c : Corpus) : String :=
  c.json.pretty

/-- The fixtures that a document describes. -/
def fixturesOfJson? (x : Json) : Option (List Fixture) :=
  match x.fields? ["fixtures"] with
  | some [some fixtures] => do
    let items ← fixtures.items?
    items.mapM Fixture.ofJson?
  | _ => none

/-- The corpus of a document. Its fixtures are added one by one. -/
def ofDocument (text : String) : Except CorpusError Corpus :=
  match (Json.read? text).bind fixturesOfJson? with
  | some fixtures => empty.addAll fixtures
  | none => .error .document

end Corpus

end PageContent
