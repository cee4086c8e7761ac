import PageContent.Conformance
import Mathlib.Algebra.GroupWithZero.Nat
import Mathlib.Data.List.Forall2

/-! # What a conformance report accounts for

    A report is gathered fixture by fixture. What it says is told by the fixtures that
    were selected.

    * **Outcomes**: a fixture passes if the outcome is what is expected of it. There are
      five ways to differ from what is expected.
    * **Tallies** have the categories that there are fixtures of, each once and in order.
    * **Accounts**: one more fixture is counted exactly once, as passed or as failed, and
      in its own category only.
    * **Parts**: the report on fixtures is put together from those on their categories.
    * **Corpora**: the report on a corpus is that on its fixtures. Nothing depends on their
      names being distinct.
-/

namespace PageContent

/-! ## Outcomes -/

/-- The outcome is what is expected: a number of operators or an offset matters only
    if one is given. -/
def Expected.IsMetBy : Expected → Except ParseError ContentStream → Prop
  | .valid pin, .ok s => ∀ n, pin = some n → n = s.operatorCount
  | .invalid kind pin, .error e => kind = e.kind ∧ ∀ n, pin = some n → n = e.offset
  | .valid _, .error _ => False
  | .invalid _ _, .ok _ => False

namespace Mismatch

/-- What is wrong with an outcome. -/
inductive Describes : Mismatch → Expected → Except ParseError ContentStream → Prop where
  /-- Valid, but with another number of operators than the one that is given. -/
  | operatorCount {n : Nat} {s : ContentStream} (h : n ≠ s.operatorCount) :
      Describes (.operatorCount s.operatorCount n) (.valid (some n)) (.ok s)
  /-- Valid streams should be accepted. -/
  | rejected {pin : Option Nat} {e : ParseError} :
      Describes (.rejected e) (.valid pin) (.error e)
  /-- Invalid streams should be rejected. -/
  | accepted {kind : ErrorKind} {pin : Option Nat} {s : ContentStream} :
      Describes (.accepted s.operatorCount) (.invalid kind pin) (.ok s)
  | errorKind {kind : ErrorKind} {pin : Option Nat} {e : ParseError} (h : kind ≠ e.kind) :
      Describes (.errorKind kind e) (.invalid kind pin) (.error e)
  /-- The right kind of error, at another place than the one that is given. -/
  | errorOffset {n : Nat} {e : ParseError} (h : n ≠ e.offset) :
      Describes (.errorOffset n e) (.invalid e.kind (some n)) (.error e)

variable {expected : Expected} {answer : Except ParseError ContentStream} {m : Mismatch}

theorem between?_eq_none_iff : between? expected answer = none ↔ expected.IsMetBy answer := by
  cases expected with
  | valid pin =>
    cases answer with
    | ok s => cases pin <;> simp [between?, Expected.IsMetBy]
    | error e => cases pin <;> simp [between?, Expected.IsMetBy]
  | invalid kind pin =>
    cases answer with
    | ok s => simp [between?, Expected.IsMetBy]
    | error e =>
      by_cases hkind : kind = e.kind
      · cases pin <;> simp [between?, Expected.IsMetBy, hkind]
      · simp [between?, Expected.IsMetBy, hkind]

/-- Every mismatch that is found describes what is wrong. -/
theorem describes_of_between? (h : between? expected answer = some m) :
    m.Describes expected answer := by
  unfold between? at h
  split at h
  · split at h
    · cases h
    · next hcount =>
      obtain rfl := Option.some.inj h
      exact Describes.operatorCount hcount
  · cases h
  · obtain rfl := Option.some.inj h
    exact Describes.rejected
  · obtain rfl := Option.some.inj h
    exact Describes.accepted
  · next kind offset e =>
    split at h
    · next hkind =>
      obtain rfl := Option.some.inj h
      exact Describes.errorKind hkind
    · next hkind =>
      obtain rfl := of_not_not hkind
      split at h
      · split at h
        · cases h
        · next hoffset =>
          obtain rfl := Option.some.inj h
          exact Describes.errorOffset hoffset
      · cases h

end Mismatch

namespace Fixture

/-- What the parser makes of the stream. -/
def outcome (f : Fixture) : Except ParseError ContentStream :=
  ContentStream.parse f.profile.options f.content

/-- The outcome is what is expected. -/
def Passes (f : Fixture) : Prop :=
  f.expected.IsMetBy f.outcome

theorem mismatch?_eq_none_iff {f : Fixture} : f.mismatch? = none ↔ f.Passes :=
  Mismatch.between?_eq_none_iff

instance (f : Fixture) : Decidable f.Passes :=
  decidable_of_iff _ mismatch?_eq_none_iff

end Fixture

/-- What is reported of a fixture that does not pass. -/
structure FixtureFailure.Reports (failure : FixtureFailure) (f : Fixture) : Prop where
  name : failure.name = f.name
  category : failure.category = f.category
  preview : failure.preview = Preview.text f.content
  expected : failure.expected = f.expected
  actual : failure.actual.Describes f.expected f.outcome

/-! ## Tallies -/

namespace CategoryTally

/-- The tally of a category, if there are fixtures of it. -/
def of? (fs : List Fixture) (k : FixtureCategory) : Option CategoryTally :=
  if ∃ f ∈ fs, f.category = k then
    some ⟨k, fs.countP fun f => f.category = k ∧ f.Passes,
      fs.countP fun f => f.category = k ∧ ¬f.Passes⟩
  else none

/-- One more fixture of the category. -/
def add (passes : Bool) (t : CategoryTally) : CategoryTally :=
  if passes then { t with passed := t.passed + 1 } else { t with failed := t.failed + 1 }

theorem one_eq_add (k : FixtureCategory) (passes : Bool) :
    count.one k passes = add passes ⟨k, 0, 0⟩ := by
  cases passes <;> rfl

theorem category_of? {fs : List Fixture} {k : FixtureCategory} {t : CategoryTally}
    (h : of? fs k = some t) : t.category = k := by
  unfold of? at h
  split at h
  · obtain rfl := Option.some.inj h
    rfl
  · cases h

/-- A category without a tally has no fixtures that have passed or failed. -/
theorem getD_of? (fs : List Fixture) (k : FixtureCategory) :
    (of? fs k).getD ⟨k, 0, 0⟩ = ⟨k, fs.countP fun f => f.category = k ∧ f.Passes,
      fs.countP fun f => f.category = k ∧ ¬f.Passes⟩ := by
  unfold of?
  split
  · rfl
  · next hnone =>
    have hzero : ∀ p : Fixture → Prop, [DecidablePred p] →
        fs.countP (fun f => f.category = k ∧ p f) = 0 := by
      intro p _
      rw [List.countP_eq_zero]
      intro f hf htrue
      exact hnone ⟨f, hf, (of_decide_eq_true htrue).1⟩
    rw [hzero, hzero]
    rfl

/-- One more fixture changes the tally of its own category only. -/
theorem of?_append (fs : List Fixture) (f : Fixture) (k : FixtureCategory) :
    of? (fs ++ [f]) k = if k = f.category then
      some (add (decide f.Passes) ((of? fs k).getD ⟨k, 0, 0⟩)) else of? fs k := by
  have hsome : (∃ g ∈ fs ++ [f], g.category = k) ↔
      (∃ g ∈ fs, g.category = k) ∨ k = f.category := by
    simp [or_and_right, exists_or, eq_comm]
  rw [getD_of?]
  unfold of?
  simp only [hsome, List.countP_append, List.countP_singleton]
  by_cases hk : k = f.category
  · by_cases hpasses : f.Passes
    · simp [hk, hpasses, add]
    · simp [hk, hpasses, add]
  · simp [hk, Ne.symm hk]

/-- Tallies after the category that is counted. -/
theorem count_of_lt {k : FixtureCategory} {passes : Bool} {ts : List CategoryTally}
    (h : ∀ t ∈ ts, k.rank < t.category.rank) :
    count k passes ts = add passes ⟨k, 0, 0⟩ :: ts := by
  rw [← one_eq_add]
  cases ts with
  | nil => rfl
  | cons t ts =>
    have hlt := h t List.mem_cons_self
    have hne : t.category ≠ k := by
      rintro rfl
      exact Nat.lt_irrefl _ hlt
    rw [count, if_neg hne, if_pos hlt]

/-- Counting goes to the tally of the category, or to a new one in its place. -/
theorem count_filterMap {g : FixtureCategory → Option CategoryTally}
    (hg : ∀ k t, g k = some t → t.category = k) {k₀ : FixtureCategory} (passes : Bool)
    {ks : List FixtureCategory} (hks : ks.Pairwise fun k k' => k.rank < k'.rank)
    (hmem : k₀ ∈ ks) :
    count k₀ passes (ks.filterMap g) = ks.filterMap fun k =>
      if k = k₀ then some (add passes ((g k).getD ⟨k, 0, 0⟩)) else g k := by
  induction ks with
  | nil => exact absurd hmem List.not_mem_nil
  | cons k ks ih =>
    obtain ⟨hlt, hrest⟩ := List.pairwise_cons.mp hks
    rw [List.filterMap_cons, List.filterMap_cons]
    by_cases hk : k = k₀
    · subst hk
      -- the other categories come after this one and stay as they are
      have hothers : (ks.filterMap fun k' =>
          if k' = k then some (add passes ((g k').getD ⟨k', 0, 0⟩)) else g k') =
          ks.filterMap g := by
        apply List.filterMap_congr
        intro k' hk'
        apply if_neg
        rintro rfl
        exact Nat.lt_irrefl _ (hlt k' hk')
      rw [if_pos rfl, hothers]
      cases hgk : g k with
      | none =>
        apply count_of_lt
        intro t ht
        obtain ⟨k', hk', hgk'⟩ := List.mem_filterMap.mp ht
        rw [hg k' t hgk']
        exact hlt k' hk'
      | some t => simp [count, hg k t hgk, add]
    · have hin : k₀ ∈ ks := (List.mem_cons.mp hmem).resolve_left (Ne.symm hk)
      have hbefore := hlt k₀ hin
      rw [if_neg hk]
      cases hgk : g k with
      | none => exact ih hrest hin
      | some t =>
        have hcategory := hg k t hgk
        rw [count, if_neg (by rwa [hcategory]), if_neg (by rw [hcategory]; omega), ih hrest hin]

/-- The tallies of some fixtures. -/
def tallies (fs : List Fixture) : List CategoryTally :=
  FixtureCategory.all.filterMap (of? fs)

theorem count_tallies (fs : List Fixture) (f : Fixture) :
    count f.category (decide f.Passes) (tallies fs) = tallies (fs ++ [f]) := by
  have hsorted : FixtureCategory.all.Pairwise fun k k' => k.rank < k'.rank := by decide
  have hmem : ∀ k, k ∈ FixtureCategory.all := by
    intro k
    cases k <;> decide
  unfold tallies
  rw [count_filterMap (fun _ _ => category_of?) _ hsorted (hmem _)]
  exact List.filterMap_congr fun k _ => (of?_append fs f k).symm

end CategoryTally

/-! ## Accounts -/

namespace ConformanceReport

/-- What a report says of the fixtures that have been replayed. -/
structure Accounts (r : ConformanceReport) (fs : List Fixture) : Prop where
  total : r.total = fs.length
  passed : r.passed = fs.countP fun f => f.Passes
  /-- The fixtures that do not pass, in order. -/
  failures : List.Forall₂ FixtureFailure.Reports r.failures (fs.filter fun f => ¬f.Passes)
  byCategory : r.byCategory = CategoryTally.tallies fs

variable {r : ConformanceReport} {fs : List Fixture}

theorem accounts_empty : empty.Accounts [] :=
  ⟨rfl, rfl, .nil, by decide⟩

/-- **One more fixture** is accounted for. -/
theorem Accounts.record (h : r.Accounts fs) (f : Fixture) :
    (r.record f f.mismatch?).Accounts (fs ++ [f]) := by
  have hcount := CategoryTally.count_tallies fs f
  rw [← h.byCategory] at hcount
  cases hmismatch : f.mismatch? with
  | none =>
    have hpasses : f.Passes := Fixture.mismatch?_eq_none_iff.mp hmismatch
    rw [decide_eq_true hpasses] at hcount
    constructor
    case total => simp [ConformanceReport.record, h.total]
    case passed => simp [ConformanceReport.record, h.passed, hpasses]
    case failures =>
      simp only [List.filter_append, List.filter_singleton, hpasses]
      simpa [ConformanceReport.record] using h.failures
    case byCategory => exact hcount
  | some m =>
    have hfails : ¬f.Passes := by
      rw [← Fixture.mismatch?_eq_none_iff, hmismatch]
      simp
    have hreports : FixtureFailure.Reports
        ⟨f.name, f.category, Preview.text f.content, f.expected, m⟩ f :=
      ⟨rfl, rfl, rfl, rfl, Mismatch.describes_of_between? hmismatch⟩
    rw [decide_eq_false hfails] at hcount
    constructor
    case total => simp [ConformanceReport.record, h.total]
    case passed => simp [ConformanceReport.record, h.passed, hfails]
    case failures =>
      have hfilter : (fs ++ [f]).filter (fun f => ¬f.Passes) =
          fs.filter (fun f => ¬f.Passes) ++ [f] := by
        simp [List.filter_append, hfails]
      rw [hfilter]
      exact List.rel_append h.failures (.cons hreports .nil)
    case byCategory => exact hcount

/-- **All fixtures** of a replay are accounted for. -/
theorem Accounts.foldl (h : r.Accounts fs) (gs : List Fixture) :
    (gs.foldl (fun r f => r.record f f.mismatch?) r).Accounts (fs ++ gs) := by
  induction gs generalizing r fs with
  | nil => rwa [List.append_nil]
  | cons g gs ih =>
    have hstep := ih (h.record g)
    rwa [List.append_assoc] at hstep

/-- Passed and failed fixtures make up the total. -/
theorem Accounts.passed_add (h : r.Accounts fs) : r.passed + r.failures.length = r.total := by
  rw [h.passed, h.total, h.failures.length_eq, ← List.countP_eq_length_filter]
  have hsplit := List.length_eq_countP_add_countP (fun f : Fixture => decide f.Passes) (l := fs)
  simpa using hsplit.symm

/-- There is no failure just if all fixtures have passed. -/
theorem Accounts.isConformant_iff (h : r.Accounts fs) :
    r.isConformant = true ↔ r.passed = r.total := by
  have hsum := h.passed_add
  unfold isConformant
  rw [List.isEmpty_iff_length_eq_zero]
  omega

end ConformanceReport

/-- The fixtures that are replayed: all of them, or those of one category. -/
def Fixture.selected (fs : List Fixture) : Option FixtureCategory → List Fixture
  | none => fs
  | some k => fs.filter (·.category = k)

namespace ConformanceReport

/-- **A replay** accounts for the fixtures that were selected. -/
theorem accounts_ofFixtures (category : Option FixtureCategory) (fs : List Fixture) :
    (ofFixtures category fs).Accounts (Fixture.selected fs category) := by
  have hselected : (fs.filter fun f => category.all (· = f.category)) =
      Fixture.selected fs category := by
    cases category with
    | none => simp [Fixture.selected]
    | some k => simp [Fixture.selected, eq_comm]
  unfold ofFixtures
  rw [hselected]
  exact accounts_empty.foldl _

/-! ## Parts -/

/-- Fixtures are counted once if they are counted by category. -/
theorem sum_countP (p : Fixture → Bool) (fs : List Fixture) :
    (FixtureCategory.all.map fun k => (fs.filter (·.category = k)).countP p).sum = fs.countP p := by
  induction fs with
  | nil => rfl
  | cons f fs ih =>
    rw [List.countP_cons, ← ih]
    -- the fixture is in one of the six categories
    simp only [FixtureCategory.all, List.map_cons, List.map_nil, List.sum_cons, List.sum_nil,
      List.filter_cons]
    cases f.category <;> simp [List.countP_cons] <;> omega

/-- The tallies of one category. -/
theorem tallies_filter (fs : List Fixture) (k : FixtureCategory) :
    CategoryTally.tallies (fs.filter (·.category = k)) = (CategoryTally.of? fs k).toList := by
  have hof : ∀ k', CategoryTally.of? (fs.filter (·.category = k)) k' =
      if k' = k then CategoryTally.of? fs k else none := by
    intro k'
    unfold CategoryTally.of?
    by_cases hk : k' = k
    · subst hk
      have hsame : ∀ p : Fixture → Prop, [DecidablePred p] →
          (fs.filter (·.category = k')).countP (fun f => f.category = k' ∧ p f) =
            fs.countP fun f => f.category = k' ∧ p f := by
        intro p _
        rw [List.countP_filter]
        apply List.countP_congr
        intro f _
        simp only [decide_eq_true_eq, Bool.and_eq_true]
        exact and_iff_left_of_imp And.left
      have hexists : (∃ f ∈ fs.filter (·.category = k'), f.category = k') ↔
          ∃ f ∈ fs, f.category = k' := by
        simp
      rw [if_pos rfl, hsame, hsame]
      simp only [hexists]
    · have hnone : ¬∃ f ∈ fs.filter (·.category = k), f.category = k' := by
        rintro ⟨f, hf, rfl⟩
        exact hk (of_decide_eq_true (List.mem_filter.mp hf).2)
      rw [if_neg hnone, if_neg hk]
  have honly : ∀ x : Option CategoryTally,
      FixtureCategory.all.filterMap (fun k' => if k' = k then x else none) = x.toList := by
    intro x
    cases k <;> cases x <;> rfl
  rw [← honly]
  exact List.filterMap_congr fun k' _ => hof k'

/-- The total is the sum of those of the categories. -/
theorem total_ofFixtures (fs : List Fixture) :
    (ofFixtures none fs).total =
      (FixtureCategory.all.map fun k => (ofFixtures (some k) fs).total).sum := by
  have hparts : ∀ k, (ofFixtures (some k) fs).total =
      (fs.filter (·.category = k)).countP fun _ => true := by
    intro k
    rw [(accounts_ofFixtures (some k) fs).total, List.countP_true]
    rfl
  simp only [hparts]
  rw [sum_countP, List.countP_true]
  exact (accounts_ofFixtures none fs).total

/-- As many fixtures pass as in the categories together. -/
theorem passed_ofFixtures (fs : List Fixture) :
    (ofFixtures none fs).passed =
      (FixtureCategory.all.map fun k => (ofFixtures (some k) fs).passed).sum := by
  have hparts : ∀ k, (ofFixtures (some k) fs).passed =
      (fs.filter (·.category = k)).countP fun f => f.Passes :=
    fun k => (accounts_ofFixtures (some k) fs).passed
  simp only [hparts]
  rw [sum_countP]
  exact (accounts_ofFixtures none fs).passed

/-- The tallies are those of the categories, one after the other. -/
theorem byCategory_ofFixtures (fs : List Fixture) :
    (ofFixtures none fs).byCategory =
      FixtureCategory.all.flatMap fun k => (ofFixtures (some k) fs).byCategory := by
  have hparts : ∀ k, (ofFixtures (some k) fs).byCategory =
      (CategoryTally.of? fs k).toList := by
    intro k
    rw [(accounts_ofFixtures (some k) fs).byCategory, ← tallies_filter]
    rfl
  simp only [hparts]
  rw [(accounts_ofFixtures none fs).byCategory]
  exact List.filterMap_eq_flatMap_toList _ _

end ConformanceReport

/-! ## Corpora -/

/-- The fixtures of a corpus that are replayed. -/
def Corpus.selected (c : Corpus) : Option FixtureCategory → List Fixture
  | none => c.fixtures
  | some k => c.ofCategory k

theorem Corpus.selected_eq (c : Corpus) (category : Option FixtureCategory) :
    c.selected category = Fixture.selected c.fixtures category := by
  cases category <;> rfl

namespace ConformanceReport

/-- **Conformance reports** account for every fixture exactly once. The counts of a replay
    are those of the fixtures that were selected, and every one of them that does not pass
    is reported in its place. The report on a whole corpus has the sums of the reports on
    its categories, and their tallies one after the other. -/
theorem ofCorpus_accounts (c : Corpus) :
    (∀ category, (ofCorpus category c).Accounts (c.selected category) ∧
      (ofCorpus category c).passed + (ofCorpus category c).failures.length =
        (ofCorpus category c).total ∧
      ((ofCorpus category c).isConformant = true ↔
        (ofCorpus category c).passed = (ofCorpus category c).total)) ∧
    (ofCorpus none c).total = (FixtureCategory.all.map fun k => (ofCorpus (some k) c).total).sum ∧
    (ofCorpus none c).passed = (FixtureCategory.all.map fun k => (ofCorpus (some k) c).passed).sum ∧
    (ofCorpus none c).byCategory =
      FixtureCategory.all.flatMap fun k => (ofCorpus (some k) c).byCategory := by
  refine ⟨?_, total_ofFixtures c.fixtures, passed_ofFixtures c.fixtures,
    byCategory_ofFixtures c.fixtures⟩
  intro category
  have h : (ofCorpus category c).Accounts (c.selected category) := by
    rw [Corpus.selected_eq]
    exact accounts_ofFixtures category c.fixtures
  exact ⟨h, h.passed_add, h.isConformant_iff⟩

end ConformanceReport

end PageContent
