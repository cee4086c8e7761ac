import PageContent.Proofs.FixtureDocuments
import Mathlib.Data.List.Induction
import Mathlib.Tactic.ByContra

/-! # What a corpus keeps

    A corpus is built call by call, and comes back from its document in the same way.

    * **Calls**: the answers to a run of calls, each of which goes on from the corpus that
      the call before it has left.
    * **Accounts**: names stay distinct; what is kept is what was accepted, in order.
      A name is refused exactly if an earlier call had it.
    * **Documents**: a corpus comes back from its own. A document with a repeated name
      fails at the first one that repeats an earlier one.
-/

namespace PageContent

namespace Corpus

/-! ## Calls -/

/-- What is answered to each of some calls, and the corpus after all of them. -/
def offerAll (c : Corpus) : List Fixture → List (Fixture × Option CorpusError) × Corpus
  | [] => ([], c)
  | f :: fs =>
    let (answer, c') := c.add f
    let (log, last) := c'.offerAll fs
    ((f, answer) :: log, last)

theorem offerAll_append (c : Corpus) (fs gs : List Fixture) :
    c.offerAll (fs ++ gs) =
      ((c.offerAll fs).1 ++ ((c.offerAll fs).2.offerAll gs).1,
        ((c.offerAll fs).2.offerAll gs).2) := by
  induction fs generalizing c with
  | nil => rfl
  | cons f fs ih => simp only [List.cons_append, offerAll, ih]

theorem offerAll_concat (c : Corpus) (fs : List Fixture) (f : Fixture) :
    c.offerAll (fs ++ [f]) =
      ((c.offerAll fs).1 ++ [(f, ((c.offerAll fs).2.add f).1)],
        ((c.offerAll fs).2.add f).2) :=
  offerAll_append c fs [f]

/-! ## Lookup -/

theorem get?_of_mem {c : Corpus} {f : Fixture} (h : f ∈ c.fixtures) :
    c.get? f.name = some f := by
  obtain ⟨before, after, hsplit⟩ := List.append_of_mem h
  have hbefore : ∀ g ∈ before, g.name ≠ f.name := by
    have hdistinct := c.distinct
    rw [hsplit, List.map_append, List.nodup_append] at hdistinct
    intro g hg
    exact hdistinct.2.2 _ (List.mem_map_of_mem hg) _ (by simp)
  rw [get?, hsplit, List.find?_append, List.find?_eq_none.mpr (by simpa using hbefore)]
  simp

theorem get?_eq_none_iff (c : Corpus) (name : String) :
    c.get? name = none ↔ name ∉ c.names := by
  simp [get?, names, List.find?_eq_none]

/-! ## Accounts -/

/-- What calls on an empty corpus, with their answers, have led to. -/
structure Accounts (log : List (Fixture × Option CorpusError)) (c : Corpus) : Prop where
  /-- The fixtures are the accepted ones, in the order of the calls. -/
  accepted : c.fixtures = (log.filter fun call => call.2.isNone).map (·.1)
  /-- Every name that was offered is in use. -/
  names : ∀ name, name ∈ c.names ↔ name ∈ log.map (·.1.name)
  /-- A call is refused, with its name, exactly if an earlier one had the name. -/
  refused : ∀ before f answer after, log = before ++ (f, answer) :: after →
    answer = if f.name ∈ before.map (·.1.name) then some (.duplicate f.name) else none

theorem accounts_nil : Accounts [] empty := by
  refine ⟨rfl, fun name => Iff.rfl, ?_⟩
  intro before f answer after h
  exact absurd h (by simp)

/-- One more call. -/
theorem Accounts.add {log : List (Fixture × Option CorpusError)} {c : Corpus}
    (h : Accounts log c) (f : Fixture) :
    Accounts (log ++ [(f, (c.add f).1)]) (c.add f).2 := by
  have hanswer : (c.add f).1 =
      if f.name ∈ log.map (·.1.name) then some (.duplicate f.name) else none := by
    by_cases hmem : f.name ∈ c.names
    · rw [add_of_mem hmem, if_pos ((h.names _).mp hmem)]
    · rw [add_of_not_mem hmem, if_neg fun hlog => hmem ((h.names _).mpr hlog)]
  have hrefused : ∀ before g answer after,
      log ++ [(f, (c.add f).1)] = before ++ (g, answer) :: after →
      answer = if g.name ∈ before.map (·.1.name) then some (.duplicate g.name) else none := by
    intro before g answer after hsplit
    rcases List.eq_nil_or_concat after with rfl | ⟨after, last, rfl⟩
    · obtain ⟨rfl, hlast⟩ := List.append_inj' hsplit rfl
      obtain ⟨rfl, rfl⟩ := Prod.mk.inj (List.singleton_inj.mp hlast)
      exact hanswer
    · have hinit : log = before ++ (g, answer) :: after := by
        rw [List.concat_eq_append, ← List.cons_append, ← List.append_assoc] at hsplit
        exact (List.append_inj' hsplit rfl).1
      exact h.refused before g answer after hinit
  refine ⟨?_, ?_, hrefused⟩
  · by_cases hmem : f.name ∈ c.names
    · rw [add_of_mem hmem, h.accepted]
      simp
    · rw [add_of_not_mem hmem]
      simp [h.accepted]
  · intro name
    rw [List.map_append, List.mem_append, ← h.names]
    by_cases hmem : f.name ∈ c.names
    · rw [add_of_mem hmem]
      refine ⟨.inl, fun hname => hname.elim id fun heq => ?_⟩
      rw [List.mem_singleton.mp heq]
      exact hmem
    · rw [add_of_not_mem hmem]
      simp [Corpus.names]

/-- A run of calls. -/
theorem accounts_offerAll (fs : List Fixture) :
    Accounts (empty.offerAll fs).1 (empty.offerAll fs).2 := by
  induction fs using List.reverseRecOn with
  | nil => exact accounts_nil
  | append_singleton fs f ih =>
    rw [offerAll_concat]
    exact ih.add f

theorem map_fst_offerAll (c : Corpus) (fs : List Fixture) :
    (c.offerAll fs).1.map (·.1) = fs := by
  induction fs generalizing c with
  | nil => rfl
  | cons f fs ih => simp only [offerAll, List.map_cons, ih]

/-! ## Loading -/

theorem addAll_append (c : Corpus) (fs gs : List Fixture) :
    c.addAll (fs ++ gs) = (c.addAll fs).bind fun c' => c'.addAll gs := by
  induction fs generalizing c with
  | nil => rfl
  | cons f fs ih =>
    simp only [List.cons_append, addAll]
    cases accepted (c.add f) with
    | ok c' => exact ih c'
    | error e => rfl

/-- Fixtures with distinct names are added as they are. -/
theorem addAll_of_nodup {fs : List Fixture} (h : (fs.map (·.name)).Nodup) :
    empty.addAll fs = .ok ⟨fs, h⟩ := by
  induction fs using List.reverseRecOn with
  | nil => rfl
  | append_singleton fs f ih =>
    have hsplit := h
    rw [List.map_append, List.nodup_append] at hsplit
    obtain ⟨hfs, _, hdisjoint⟩ := hsplit
    have hfresh : f.name ∉ (Corpus.mk fs hfs).names := fun hmem =>
      hdisjoint _ hmem _ (List.mem_singleton_self _) rfl
    rw [addAll_append, ih hfs]
    show addAll ⟨fs, hfs⟩ [f] = _
    rw [addAll, add_of_not_mem hfresh]
    rfl

/-- Loading ends at the first name that repeats an earlier one. -/
theorem addAll_of_repeats {before : List Fixture} (h : (before.map (·.name)).Nodup)
    {f : Fixture} (hf : f.name ∈ before.map (·.name)) (after : List Fixture) :
    empty.addAll (before ++ f :: after) = .error (.duplicate f.name) := by
  have hadd : add ⟨before, h⟩ f = (some (.duplicate f.name), ⟨before, h⟩) := add_of_mem hf
  rw [addAll_append, addAll_of_nodup h]
  show addAll ⟨before, h⟩ (f :: after) = _
  rw [addAll, hadd]
  rfl

/-- Among fixtures whose names are not distinct, some first one repeats an earlier
    name. -/
theorem exists_first_repeat {fs : List Fixture} (h : ¬ (fs.map (·.name)).Nodup) :
    ∃ before f after, fs = before ++ f :: after ∧ (before.map (·.name)).Nodup ∧
      f.name ∈ before.map (·.name) := by
  induction fs using List.reverseRecOn with
  | nil => exact absurd List.nodup_nil h
  | append_singleton fs f ih =>
    by_cases hfs : (fs.map (·.name)).Nodup
    · refine ⟨fs, f, [], rfl, hfs, ?_⟩
      by_contra hfresh
      exact h (Fixture.nodup_concat hfs hfresh)
    · obtain ⟨before, g, after, rfl, hbefore, hg⟩ := ih hfs
      exact ⟨before, g, after ++ [f], by simp, hbefore, hg⟩

/-! ## The main result -/

/-- **Corpora** that are built call by call keep distinct names, hold the accepted
    fixtures in order and find each by its name; a refused call changes nothing. They
    come back from their documents, and any document with a repeated name fails at the
    first one that repeats an earlier one. -/
theorem built_corpora_are_kept_and_read_back (fs : List Fixture) :
    (empty.offerAll fs).1.map (·.1) = fs ∧
    (empty.offerAll fs).2.names.Nodup ∧
    Accounts (empty.offerAll fs).1 (empty.offerAll fs).2 ∧
    (∀ f, f.name ∈ fs.map (·.name) →
      (empty.offerAll fs).2.add f =
        (some (.duplicate f.name), (empty.offerAll fs).2)) ∧
    (∀ f ∈ (empty.offerAll fs).2.fixtures, (empty.offerAll fs).2.get? f.name = some f) ∧
    (∀ name, name ∉ fs.map (·.name) → (empty.offerAll fs).2.get? name = none) ∧
    ((∀ f ∈ fs, f.expected.Fits) →
      ofDocument (empty.offerAll fs).2.document = .ok (empty.offerAll fs).2 ∧
      (Json.read? (describe fs).pretty).bind fixturesOfJson? = some fs) ∧
    ∀ text, (Json.read? text).bind fixturesOfJson? = some fs →
      (∀ h : (fs.map (·.name)).Nodup, ofDocument text = .ok ⟨fs, h⟩) ∧
      (¬ (fs.map (·.name)).Nodup → ∃ before f after, fs = before ++ f :: after ∧
        (before.map (·.name)).Nodup ∧ f.name ∈ before.map (·.name) ∧
        ofDocument text = .error (.duplicate f.name)) := by
  have hcalls := map_fst_offerAll empty fs
  have haccounts := accounts_offerAll fs
  generalize empty.offerAll fs = built at hcalls haccounts ⊢
  obtain ⟨log, c⟩ := built
  subst hcalls
  have hnames : ∀ name, name ∈ c.names ↔ name ∈ (log.map (·.1)).map (·.name) := by
    intro name
    rw [haccounts.names, List.map_map]
    rfl
  refine ⟨rfl, c.distinct, haccounts, ?_, fun f => get?_of_mem, ?_, ?_, ?_⟩
  · intro f hf
    exact add_of_mem ((hnames _).mpr hf)
  · intro name hname
    exact (get?_eq_none_iff c name).mpr fun hmem => hname ((hnames _).mp hmem)
  · intro hfit
    refine ⟨?_, read?_describe hfit⟩
    have hkept : ∀ f ∈ c.fixtures, f.expected.Fits := by
      intro f hf
      rw [haccounts.accepted] at hf
      obtain ⟨call, hcall, rfl⟩ := List.mem_map.mp hf
      exact hfit _ (List.mem_map_of_mem (List.mem_filter.mp hcall).1)
    have hread : (Json.read? c.document).bind fixturesOfJson? = some c.fixtures :=
      read?_describe hkept
    rw [ofDocument, hread]
    exact addAll_of_nodup c.distinct
  · intro text hread
    rw [ofDocument, hread]
    refine ⟨addAll_of_nodup, fun hrepeat => ?_⟩
    obtain ⟨before, f, after, hsplit, hbefore, hf⟩ := exists_first_repeat hrepeat
    refine ⟨before, f, after, hsplit, hbefore, hf, ?_⟩
    rw [hsplit]
    exact addAll_of_repeats hbefore hf after

/-- Three calls, the last of which has the name of the first. -/
theorem snowman_is_refused_and_read_back :
    let snowman : Fixture := .new "\u2603" .minimal "\n\"caf\u00e9\"" [0, 255] (.valid (some 3))
    let blank : Fixture := .new "" .profiles "" [] (.invalid .lexical none)
    let again : Fixture := .new "\u2603" .complex "" [] (.valid none)
    let fs := [snowman, blank, again]
    (empty.offerAll fs).2.fixtures = [snowman, blank] ∧
    ofDocument (empty.offerAll fs).2.document = .ok (empty.offerAll fs).2 ∧
    ofDocument (describe fs).pretty = .error (.duplicate "\u2603") := by
  intro snowman blank again fs
  have hfit : ∀ f ∈ fs, f.expected.Fits := by
    simp only [fs, List.forall_mem_cons]
    refine ⟨?_, ?_, ?_, by simp⟩ <;> intro n hn <;> cases hn
    decide
  obtain ⟨_, _, _, _, _, _, hdocument, hloads⟩ := built_corpora_are_kept_and_read_back fs
  obtain ⟨hback, hread⟩ := hdocument hfit
  refine ⟨by decide, hback, ?_⟩
  obtain ⟨before, f, after, hsplit, hbefore, hf, herror⟩ := (hloads _ hread).2 (by decide)
  rw [herror]
  have hname : f.name = "\u2603" := by
    cases before with
    | nil => exact absurd hf (by simp)
    | cons b before =>
      obtain ⟨rfl, hrest⟩ := List.cons.inj hsplit
      cases before with
      | nil =>
        obtain ⟨rfl, _⟩ := List.cons.inj hrest
        exact absurd hf (by decide)
      | cons b before =>
        obtain ⟨rfl, hlast⟩ := List.cons.inj hrest
        cases before with
        | nil =>
          obtain ⟨rfl, _⟩ := List.cons.inj hlast
          rfl
        | cons b before => exact absurd (List.cons.inj hlast).2 (by simp)
  rw [hname]

end Corpus

end PageContent
