import PageContent.Corpus.Document
import PageContent.Proofs.JsonDocuments

/-! # Fixtures as documents

    What a fixture is written as is read as the same fixture.

    * **Records** and **variants**: the fields of a record are found by their names, and
      a variant by its tag.
    * **Fixtures**: every field is read back. Counts and offsets have to fit in a machine
      word; names, descriptions and contents may be anything.
    * **Lists of fixtures** are described by a document, whatever their names are.
-/

namespace PageContent

/-- Every part of a list is read back from what it is written as, and so is the list. -/
theorem mapM_map_eq_some {α β : Type} {write : α → β} {read? : β → Option α} {xs : List α}
    (h : ∀ x ∈ xs, read? (write x) = some x) : (xs.map write).mapM read? = some xs := by
  induction xs with
  | nil => rfl
  | cons x xs ih =>
    have hxs := ih fun y hy => h y (List.mem_cons_of_mem _ hy)
    simp [List.mapM_cons, h x List.mem_cons_self, hxs]

namespace Json

/-! ## Scalars -/

theorem text?_text (s : String) : (text s).text? = some s :=
  unquote?_quote s

theorem natBelow?_nat {bound n : Nat} (h : n < bound) : (nat n).natBelow? bound = some n := by
  simp [natBelow?, nat?_nat, h]

theorem count?_natOrNull {pin : Option Nat} (h : ∀ n ∈ pin, n < countBound) :
    count? (some (natOrNull pin)) = some pin := by
  cases pin with
  | none => rfl
  | some n =>
    have hn : (nat n).natBelow? countBound = some n := natBelow?_nat (h n rfl)
    show ((nat n).natBelow? countBound).map some = some (some n)
    rw [hn]
    rfl

theorem bytes?_array (bytes : List UInt8) :
    (array (bytes.map fun b => nat b.toNat)).bytes? = some bytes := by
  have hbyte : ∀ b ∈ bytes, ((nat b.toNat).natBelow? 256).map Nat.toUInt8 = some b := by
    intro b _
    rw [natBelow?_nat b.toNat_lt]
    simp
  exact mapM_map_eq_some hbyte

/-! ## Records and variants -/

theorem members?_record (members : List (String × Json)) :
    (record members).members? = some members := by
  refine mapM_map_eq_some fun m _ => ?_
  show (unquote? (quote m.1)).map (·, m.2) = some m
  rw [unquote?_quote]
  rfl

theorem lookup_map_fst {members : List (String × Json)} (h : (members.map (·.1)).Nodup) :
    (members.map (·.1)).map (fun name => members.lookup name) =
      members.map fun m => some m.2 := by
  have hlookup : ∀ m ∈ members, members.lookup m.1 = some m.2 := by
    induction members with
    | nil => simp
    | cons first rest ih =>
      obtain ⟨hfirst, hrest⟩ := List.nodup_cons.mp h
      intro m hm
      rcases List.mem_cons.mp hm with rfl | hm
      · exact List.lookup_cons_self
      · have hne : m.1 ≠ first.1 := by
          intro heq
          exact hfirst (List.mem_map.mpr ⟨m, hm, heq⟩)
        have hbeq : (m.1 == first.1) = false := by simpa using hne
        rw [List.lookup_cons, hbeq]
        exact ih hrest m hm
  rw [List.map_map]
  exact List.map_congr_left hlookup

/-- The fields of a record are found by their names. -/
theorem fields?_record (members : List (String × Json)) (names : List String)
    (hnames : members.map (·.1) = names) (h : names.Nodup) :
    (record members).fields? names = some (members.map fun m => some m.2) := by
  subst hnames
  have hknown : (members.map (·.1)).filter (members.map (·.1)).contains = members.map (·.1) := by
    rw [List.filter_eq_self]
    intro name hname
    exact List.contains_iff_mem.mpr hname
  have hmembers := members?_record members
  unfold record at hmembers ⊢
  simp only [fields?, hmembers, Option.bind_eq_bind, Option.bind_some, hknown, if_pos h,
    lookup_map_fst h]

theorem variant?_text (tag : String) : (text tag).variant? = some (tag, none) := by
  show (unquote? (quote tag)).map (·, none) = _
  rw [unquote?_quote]
  rfl

theorem variant?_record (tag : String) (body : Json) :
    (record [(tag, body)]).variant? = some (tag, some body) := by
  show (unquote? (quote tag)).map (·, some body) = _
  rw [unquote?_quote]
  rfl

/-- A variant is found by its tag, if it is the first one that has it. -/
theorem unit?_text {α : Type} {tag : α → String} {all : List α} {a : α}
    (h : all.find? (fun b => tag b = tag a) = some a) :
    (text (tag a)).unit? tag all = some a := by
  simp [unit?, variant?_text, h]

end Json

/-! ## Fixtures -/

namespace Expected

/-- The count or the offset that is given fits in a machine word. -/
def Fits : Expected → Prop
  | .valid operators => ∀ n ∈ operators, n < Json.countBound
  | .invalid _ offset => ∀ n ∈ offset, n < Json.countBound

theorem ofJson?_json {expected : Expected} (h : expected.Fits) :
    ofJson? expected.json = some expected := by
  cases expected with
  | valid operators =>
    have hfields := Json.fields?_record
      [("operator_count", Json.natOrNull operators)] ["operator_count"] rfl (by decide)
    simp only [List.map_cons, List.map_nil] at hfields
    simp only [ofJson?, json, Json.variant?_record, hfields]
    rw [Json.count?_natOrNull h]
    rfl
  | invalid kind offset =>
    have hfields := Json.fields?_record
      [("error", .text kind.tag), ("offset", Json.natOrNull offset)] ["error", "offset"] rfl
      (by decide)
    have hkind : (Json.text kind.tag).unit? ErrorKind.tag ErrorKind.all = some kind :=
      Json.unit?_text (by cases kind <;> decide)
    simp only [List.map_cons, List.map_nil] at hfields
    simp only [ofJson?, json, Json.variant?_record, hfields]
    rw [hkind, Json.count?_natOrNull h]
    rfl

end Expected

namespace Json

theorem Composed.natOrNull (pin : Option Nat) : Composed (natOrNull pin) := by
  cases pin with
  | none => exact .null
  | some n => exact .nat n

end Json

namespace Expected

theorem composed_json (expected : Expected) : expected.json.Composed := by
  cases expected with
  | valid operators =>
    refine .record fun m hm => ?_
    rw [List.mem_singleton.mp hm]
    refine .record fun m' hm' => ?_
    rw [List.mem_singleton.mp hm']
    exact .natOrNull operators
  | invalid kind offset =>
    refine .record fun m hm => ?_
    rw [List.mem_singleton.mp hm]
    refine .record ?_
    simp only [List.forall_mem_cons]
    exact ⟨.text _, .natOrNull offset, by simp⟩

end Expected

namespace Fixture

/-- **Fixtures** are read back from their documents. -/
theorem ofJson?_json {f : Fixture} (h : f.expected.Fits) : ofJson? f.json = some f := by
  have hfields := Json.fields?_record
    [("name", .text f.name), ("category", .text f.category.tag),
      ("description", .text f.description),
      ("content", .array (f.content.map fun b => .nat b.toNat)),
      ("profile", .text f.profile.tag), ("expected", f.expected.json)]
    ["name", "category", "description", "content", "profile", "expected"] rfl (by decide)
  have hcategory : (Json.text f.category.tag).unit? FixtureCategory.tag FixtureCategory.all =
      some f.category := Json.unit?_text (by cases f.category <;> decide)
  have hprofile : (Json.text f.profile.tag).unit? Profile.tag Profile.all = some f.profile :=
    Json.unit?_text (by cases f.profile <;> decide)
  simp only [List.map_cons, List.map_nil] at hfields
  simp only [ofJson?, json, hfields, Json.text?_text, hcategory, Json.bytes?_array, hprofile,
    Expected.ofJson?_json h]
  rfl

theorem composed_json (f : Fixture) : f.json.Composed := by
  refine .record ?_
  simp only [List.forall_mem_cons]
  refine ⟨.text _, .text _, .text _, .array ?_, .text _, f.expected.composed_json, by simp⟩
  intro x hx
  obtain ⟨b, _, rfl⟩ := List.mem_map.mp hx
  exact .nat _

end Fixture

/-! ## Lists of fixtures -/

namespace Corpus

/-- The document that describes some fixtures. -/
def describe (fs : List Fixture) : Json :=
  .record [("fixtures", .array (fs.map (·.json)))]

theorem fixturesOfJson?_describe {fs : List Fixture} (h : ∀ f ∈ fs, f.expected.Fits) :
    fixturesOfJson? (describe fs) = some fs := by
  have hfields := Json.fields?_record
    [("fixtures", .array (fs.map (·.json)))] ["fixtures"] rfl (by decide)
  have hitems : (fs.map (·.json)).mapM Fixture.ofJson? = some fs :=
    mapM_map_eq_some fun f hf => Fixture.ofJson?_json (h f hf)
  simp only [List.map_cons, List.map_nil] at hfields
  simp only [fixturesOfJson?, describe, hfields]
  exact hitems

/-- Fixtures are read back from the text that describes them, even if their names are
    repeated. -/
theorem read?_describe {fs : List Fixture} (h : ∀ f ∈ fs, f.expected.Fits) :
    (Json.read? (describe fs).pretty).bind fixturesOfJson? = some fs := by
  have hcomposed : (describe fs).Composed := by
    refine .record fun m hm => ?_
    rw [List.mem_singleton.mp hm]
    refine .array fun x hx => ?_
    obtain ⟨f, _, rfl⟩ := List.mem_map.mp hx
    exact f.composed_json
  rw [Json.read?_pretty hcomposed]
  exact fixturesOfJson?_describe h

end Corpus

end PageContent
