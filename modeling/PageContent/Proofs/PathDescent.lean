import PageContent.Proofs.OperandDescent
import PageContent.Proofs.Recognition

/-! # Paths and images by recursive descent

    The functions for items that hold no others do what the recogniser does with
    its states.

    * **Counters and frames**: a state has as many groups and compatibility
      sections open as there are frames.
    * **Performing**: a function returns the node that the recogniser delivers to
      the frames, at the same place of the stream, or it fails as the recogniser
      does. The frames around it do not matter otherwise.
    * **Calls**: an item that is no path reads its first operator as a phrase of
      the feed. A path looks at the operator first.
-/

namespace PageContent

namespace Recognizer

variable {o : Options} {outer : List Frame}

/-! ## Runs from a part -/

/-- Go on after a step. -/
def goOn (o : Options) (rest : Feed) : Progress → Except (ParseError × Feed) (Node × Feed)
  | .more state => run o state rest
  | .done n => .ok (n, rest)

theorem run_phrase (state : RecognizerState) (ph : Phrase) (rest : Feed) :
    run o state (.phrase ph rest) =
      match step o ph state with
      | .ok pr => goOn o rest pr
      | .error f => .error (f.error, ph.leave f.left rest) := by
  rw [run]
  cases step o ph state with
  | ok pr => cases pr <;> rfl
  | error f => rfl

/-- Go on after a call. The step after it may fail once its operator is used. -/
def afterCall (o : Options) (next : Invocation → Except Failure Progress) :
    Except (ParseError × Feed) (Invocation × Feed) → Except (ParseError × Feed) (Node × Feed)
  | .error failure => .error failure
  | .ok (call, rest) =>
    match next call with
    | .ok pr => goOn o rest pr
    | .error f => .error (f.error, rest)

/-- A step that reads a call and goes on with it. -/
theorem run_phrase_call {state : RecognizerState} {ph : Phrase}
    {read : Phrase → Except Failure Invocation} {next : Invocation → Except Failure Progress}
    (hstep : step o ph state = read ph >>= next)
    (hnext : ∀ call f, next call = .error f → f.left = none) (limit : Nat)
    (expected : Expectation) (rest : Feed) :
    run o state (.phrase ph rest) =
      afterCall o next (Feed.call limit read expected (.phrase ph rest)) := by
  rw [run_phrase, hstep, Feed.call]
  cases read ph with
  | error f => rfl
  | ok call =>
    show (match next call with
      | .ok pr => _
      | .error f => _) = _
    cases hcall : next call with
    | ok pr => simp [afterCall, hcall]
    | error f => simp [afterCall, hcall, Phrase.leave, hnext call f hcall]

/-- A committed part reads a call and goes on with it. -/
theorem run_within {part : Part} (hpart : part.isCommitted = true)
    {read : Phrase → Except Failure Invocation} {next : Invocation → Except Failure Progress}
    (hstep : ∀ ph, stepPart o.maxNesting ph outer part = read ph >>= next)
    (hnext : ∀ call f, next call = .error f → f.left = none) (feed : Feed) :
    run o (.within part outer) feed =
      afterCall o next (feed.call o.maxNesting read part.expected) := by
  cases feed with
  | phrase ph rest =>
    have hstep' : step o ph (.within part outer) = read ph >>= next := hstep ph
    exact run_phrase_call hstep' hnext _ _ rest
  | finish pending eof =>
    rw [run, finish, if_pos hpart, readPending, Feed.call]
    cases OperandReader.start.run o.maxNesting pending <;> rfl
  | fault pending e rest =>
    rw [run, meetFault, if_pos hpart, readPending, Feed.call, keptTokens, if_pos hpart]
    cases OperandReader.start.run o.maxNesting pending <;> simp [Feed.prepend_nil, afterCall]
  | stuck pending e =>
    rw [run, meetFault, if_pos hpart, readPending, Feed.call, keptTokens, if_pos hpart]
    cases OperandReader.start.run o.maxNesting pending <;> rfl

/-- States that look for an operator meet a fault on the way to it. -/
theorem run_of_seek_error {state : RecognizerState} (hstate : ∀ part outer,
      state = .within part outer → part.isCommitted = false)
    {feed : Feed} {failure : ParseError × Feed} (h : feed.seek = .error failure) :
    run o state feed = .error failure := by
  have hparts : ∀ pending e, meetFault o.maxNesting pending e state = (.lexical e, none) ∧
      keptTokens pending state = pending := by
    intro pending e
    cases state with
    | between top outer => exact ⟨rfl, rfl⟩
    | within part outer => simp [meetFault, keptTokens, hstate part outer rfl]
  cases feed with
  | phrase ph rest => exact absurd h (by simp [Feed.seek])
  | finish pending eof => exact absurd h (by simp [Feed.seek])
  | fault pending e rest =>
    obtain ⟨hmeet, hkept⟩ := hparts pending e
    obtain rfl := Except.error.inj h
    rw [run, hmeet, hkept]
  | stuck pending e =>
    obtain ⟨hmeet, hkept⟩ := hparts pending e
    obtain rfl := Except.error.inj h
    rw [run, hmeet, hkept]

theorem run_between_of_seek_error {top : Frame} {feed : Feed} {failure : ParseError × Feed}
    (h : feed.seek = .error failure) : run o (.between top outer) feed = .error failure := by
  refine run_of_seek_error ?_ h
  intro part outer' hstate
  exact absurd hstate (by simp)

theorem run_path_of_seek_error {drawn : List Invocation} {clip : Option Invocation}
    {feed : Feed} {failure : ParseError × Feed} (h : feed.seek = .error failure) :
    run o (.within (.path drawn clip) outer) feed = .error failure := by
  refine run_of_seek_error ?_ h
  intro part outer' hstate
  obtain ⟨rfl, -⟩ := RecognizerState.within.inj hstate
  rfl

theorem runConstruction_of_seek_error {limit : Nat} {drawn : List Invocation} {feed : Feed}
    {failure : ParseError × Feed} (h : feed.seek = .error failure) :
    runConstruction limit drawn feed = .error failure := by
  cases feed with
  | phrase ph rest => exact absurd h (by simp [Feed.seek])
  | finish pending eof => exact absurd h (by simp [Feed.seek])
  | fault pending e rest =>
    obtain rfl := Except.error.inj h
    rfl
  | stuck pending e =>
    obtain rfl := Except.error.inj h
    rfl

end Recognizer

/-! ## Frames -/

namespace Frame

/-- How many groups, containers and compatibility sections are open in frames. -/
def counters (frames : List Frame) : Nat × Nat × Nat :=
  (depth frames, 0, frames.countP fun f => f.enclosure == .within .compatibility)

theorem counters_stream (nodes : List Node) (outer : List Frame) :
    counters (⟨.stream, nodes⟩ :: outer) = counters outer := by
  simp [counters, depth]

theorem counters_within (s : Section) (nodes : List Node) (outer : List Frame) :
    counters (⟨.within s, nodes⟩ :: outer) =
      ((counters outer).1 + 1, 0, (counters outer).2.2 + if s = .compatibility then 1 else 0) := by
  cases s <;> simp [counters, depth]

theorem inCompatibility_iff (frames : List Frame) :
    inCompatibility frames = true ↔ 0 < (counters frames).2.2 := by
  simp only [inCompatibility, counters, List.countP_pos_iff, List.any_eq_true]

theorem level_within (s : Section) (nodes : List Node) (outer : List Frame) :
    level (⟨.within s, nodes⟩ :: outer) = s.inner (level outer) := by
  cases s <;> rfl

end Frame

namespace Descent

open Recognizer

/-- The state has open what frames say, and reads under the same options. -/
structure Inside (d : Descent) (o : Options) (frames : List Frame) : Prop where
  consistent : d.Consistent
  options : d.options = o
  counters : d.counters = Frame.counters frames

section Items

variable {o : Options} {d : Descent} {outer frames : List Frame}

theorem Inside.later {d' : Descent} (h : Inside d o frames) (hlater : Later d d')
    (hcounters : d'.counters = d.counters) : Inside d' o frames :=
  ⟨hlater.consistent, hlater.options.trans h.options, hcounters.trans h.counters⟩

theorem Inside.containers (h : Inside d o frames) : d.containers.depth = 0 :=
  congrArg (·.2.1) h.counters

/-- The function returns the node that a run delivers, having read some of the
    stream, or fails as the run does. -/
def Performs (o : Options) (outer : List Frame) (x : Call Node) (d : Descent)
    (result : Except (ParseError × Feed) (Node × Feed)) : Prop :=
  Ends x d fun y d' =>
    match y with
    | .ok n => result = goOn o d'.feed (deliver n outer) ∧ d'.counters = d.counters ∧
        d'.feed.size < d.feed.size
    | .error e => result = .error (e, d'.feed)

/-! ## Calls of a part -/

theorem size_of_call {limit : Nat} {read : Phrase → Except Failure Invocation}
    {expected : Expectation} {feed rest : Feed} {call : Invocation}
    (h : feed.call limit read expected = .ok (call, rest)) : rest.size < feed.size := by
  cases feed with
  | phrase ph rest' =>
    rw [Feed.call] at h
    cases hread : read ph with
    | error f => simp [hread] at h
    | ok call' =>
      obtain ⟨rfl, rfl⟩ : call' = call ∧ rest' = rest := by simpa [hread] using h
      simp only [Feed.size]
      omega
  | finish pending eof =>
    rw [Feed.call] at h
    cases hrun : OperandReader.start.run limit pending <;> simp [hrun] at h
  | fault pending e rest' =>
    rw [Feed.call] at h
    cases hrun : OperandReader.start.run limit pending <;> simp [hrun] at h
  | stuck pending e =>
    rw [Feed.call] at h
    cases hrun : OperandReader.start.run limit pending <;> simp [hrun] at h

/-- A call that a run begins with. -/
theorem call_ends {x : Call Invocation} {limit : Nat}
    {read : Phrase → Except Failure Invocation} {expected : Expectation}
    {result : Except (ParseError × Feed) (Node × Feed)}
    {next : Invocation → Except Failure Progress}
    (hx : Reads x d (d.feed.call limit read expected))
    (hrun : result = afterCall o next (d.feed.call limit read expected)) :
    Ends x d fun y d' =>
      match y with
      | .ok call => d'.counters = d.counters ∧ d'.feed.size < d.feed.size ∧
          result = afterCall o next (.ok (call, d'.feed))
      | .error e => result = .error (e, d'.feed) := by
  refine Ends.mono hx ?_
  intro y d' hlater hfound
  cases y with
  | ok call =>
    rw [hfound.1] at hrun
    exact ⟨hfound.2, size_of_call hfound.1, hrun⟩
  | error e =>
    rw [hfound] at hrun
    exact hrun

/-- A call that a run begins with, and what comes after it. -/
theorem Ends.call {β : Type} {x : Call Invocation} {f : Invocation → Call β} {limit : Nat}
    {read : Phrase → Except Failure Invocation} {expected : Expectation}
    {result : Except (ParseError × Feed) (Node × Feed)}
    {next : Invocation → Except Failure Progress} {S : Except ParseError β → Descent → Prop}
    (hx : Reads x d (d.feed.call limit read expected))
    (hrun : result = afterCall o next (d.feed.call limit read expected))
    (hok : ∀ call d', Later d d' → d'.counters = d.counters → d'.feed.size < d.feed.size →
      result = afterCall o next (.ok (call, d'.feed)) → Ends (f call) d' S)
    (herror : ∀ e d', result = .error (e, d'.feed) → S (.error e) d') :
    Ends (x >>= f) d S := by
  refine Ends.bind (call_ends hx hrun) ?_ ?_
  · intro call d' hlater hfound
    exact hok call d' hlater hfound.1 hfound.2.1 hfound.2.2
  · intro e d' hlater hfound
    exact herror e d' hfound

theorem Inside.invocation (h : Inside d o outer) (p : Production) :
    Reads (invocation p) d
      (d.feed.call o.maxNesting (Phrase.invocation o.maxNesting p) (.keywordOf p)) := by
  have hcall := invocation_reads h.consistent h.containers p
  rwa [h.options] at hcall

theorem left_of_ok {α : Type} {a : α} {f : Failure} (h : (.ok a : Except Failure α) = .error f) :
    f.left = none :=
  absurd h (by simp)

/-- A part that is no more than a call. -/
theorem call_performs {x : Call Invocation} {part : Part}
    {read : Phrase → Except Failure Invocation}
    (hx : Reads x d (d.feed.call o.maxNesting read part.expected))
    (hpart : part.isCommitted = true)
    (hstep : ∀ ph, stepPart o.maxNesting ph outer part =
      read ph >>= fun call => .ok (deliver (.invocation call) outer)) :
    Performs o outer (do return .invocation (← x)) d (run o (.within part outer) d.feed) := by
  refine Ends.call hx (run_within hpart hstep (fun _ _ => left_of_ok) _) ?_ ?_
  · intro call d' hlater hcounters hsize hrun
    exact Ends.pure hlater.consistent ⟨hrun, hcounters, hsize⟩
  · intro e d' hrun
    exact hrun

theorem inlineImage_performs (h : Inside d o outer) :
    Performs o outer inlineImage d (run o (.within .image outer) d.feed) := by
  have hbegin : ∀ feed, run o (.within .image outer) feed = afterCall o
      (fun call => .ok (.more (.within (.imageData call) outer)))
      (feed.call o.maxNesting (Phrase.invocation o.maxNesting .beginInlineImage)
        (.keywordOf .beginInlineImage)) :=
    run_within rfl (fun _ => rfl) fun _ _ => left_of_ok
  have hdata : ∀ begin feed, run o (.within (.imageData begin) outer) feed = afterCall o
      (fun call => .ok (.more (.within (.imageEnd begin call) outer)))
      (feed.call o.maxNesting (Phrase.invocation o.maxNesting .inlineImageData)
        (.keywordOf .inlineImageData)) :=
    fun _ => run_within rfl (fun _ => rfl) fun _ _ => left_of_ok
  have hend : ∀ begin data feed, run o (.within (.imageEnd begin data) outer) feed = afterCall o
      (fun call => .ok (deliver
        (.ofChildren .inlineImage ([begin, data, call].map .invocation)) outer))
      (feed.call o.maxNesting (Phrase.invocation o.maxNesting .endInlineImage)
        (.keywordOf .endInlineImage)) :=
    fun _ _ => run_within rfl (fun _ => rfl) fun _ _ => left_of_ok
  -- three calls, each in the state that the one before leads to
  refine Ends.call (h.invocation _) (hbegin _) ?_ ?_
  · intro begin d₁ hlater₁ hcounters₁ hsize₁ hrun₁
    have h₁ := h.later hlater₁ hcounters₁
    refine Ends.call (h₁.invocation _) (hdata begin _) ?_ ?_
    · intro data d₂ hlater₂ hcounters₂ hsize₂ hrun₂
      have h₂ := h₁.later hlater₂ hcounters₂
      refine Ends.call (h₂.invocation _) (hend begin data _) ?_ ?_
      · intro fin d₃ hlater₃ hcounters₃ hsize₃ hrun₃
        refine Ends.pure hlater₃.consistent ⟨hrun₁.trans (hrun₂.trans hrun₃), ?_, by omega⟩
        exact hcounters₃.trans (hcounters₂.trans hcounters₁)
      · intro e d₃ hrun₃
        exact hrun₁.trans (hrun₂.trans hrun₃)
    · intro e d₂ hrun₂
      exact hrun₁.trans hrun₂
  · intro e d₁ hrun₁
    exact hrun₁

/-! ## The operator that comes next -/

theorem peekKeyword_bind {β : Type} {f : Token → Call β}
    {S : Except ParseError β → Descent → Prop} (hd : d.Consistent)
    (hok : ∀ t d', Later d d' → d'.counters = d.counters → d'.feed = d.feed →
      d.feed.keyword? = some t → Ends (f t) d' S)
    (herror : ∀ e d', d.feed.seek = .error (e, d'.feed) → S (.error e) d') :
    Ends (peekKeyword >>= f) d S := by
  refine Reads.bind (peekKeyword_reads hd) ?_ herror
  intro t d' hlater hseek hcounters
  obtain ⟨ht, hfeed⟩ := Feed.seek_eq_ok_iff.mp hseek
  exact hok t d' hlater hcounters hfeed ht

/-- An operator that has been seen is seen again. -/
theorem peekKeyword_again {β : Type} {f : Token → Call β} {t : Token}
    {S : Except ParseError β → Descent → Prop} (hd : d.Consistent)
    (ht : d.feed.keyword? = some t)
    (h : ∀ d', Later d d' → d'.feed = d.feed → Ends (f t) d' S) :
    Ends (peekKeyword >>= f) d S := by
  refine peekKeyword_bind hd ?_ ?_
  · intro t' d' hlater hcounters hfeed ht'
    obtain rfl := Option.some.inj (ht.symm.trans ht')
    exact h d' hlater hfeed
  · intro e d' hseek
    rw [Feed.seek_eq_ok_iff.mpr ⟨ht, rfl⟩] at hseek
    exact absurd hseek (by simp)

theorem peekOperator_bind {β : Type} {f : Option Operator → Call β}
    {S : Except ParseError β → Descent → Prop} (hd : d.Consistent)
    (hok : ∀ t d', Later d d' → d'.counters = d.counters → d'.feed = d.feed →
      d.feed.keyword? = some t → Ends (f (operator? t)) d' S)
    (herror : ∀ e d', d.feed.seek = .error (e, d'.feed) → S (.error e) d') :
    Ends (peekOperator >>= f) d S := by
  have hpeek : Ends peekOperator d fun r d' =>
      match r with
      | .ok x => ∃ t, x = operator? t ∧ d'.counters = d.counters ∧ d'.feed = d.feed ∧
          d.feed.keyword? = some t
      | .error e => d.feed.seek = .error (e, d'.feed) := by
    refine peekKeyword_bind hd ?_ ?_
    · intro t d' hlater hcounters hfeed ht
      exact Ends.pure hlater.consistent ⟨t, rfl, hcounters, hfeed, ht⟩
    · intro e d' hseek
      exact hseek
  refine Ends.bind hpeek ?_ ?_
  · intro x d' hlater hfound
    obtain ⟨t, rfl, hcounters, hfeed, ht⟩ := hfound
    exact hok t d' hlater hcounters hfeed ht
  · intro e d' hlater hseek
    exact herror e d' hseek

/-- Nothing is known of the end of the stream. -/
theorem operator?_eof {t : Token} (h : t.lexeme = .eof) : operator? t = none := by
  unfold operator?
  rw [h]

/-! ## Paths -/

/-- A path refuses what neither draws nor clips nor paints it. -/
theorem run_path_refused {drawn : List Invocation} {clip : Option Invocation} {feed : Feed}
    {t : Token} (htidy : feed.Tidy) (ht : feed.keyword? = some t)
    (hdraw : ∀ op, operator? t = some op → ¬ (op.category = .pathConstruction ∧ clip = none))
    (hpaint : ∀ op, operator? t = some op → drawn ≠ [] →
      ¬ (op.production = .clipping ∧ clip = none) ∧
      ¬ (op.production = .pathPainting ∨ op.production = .endPath)) :
    run o (.within (.path drawn clip) outer) feed =
      .error (.misplaced t (Part.path drawn clip).expected, feed) := by
  cases feed with
  | fault pending e rest => exact absurd ht (by simp [Feed.keyword?])
  | stuck pending e => exact absurd ht (by simp [Feed.keyword?])
  | finish pending eof =>
    obtain rfl := Option.some.inj ht
    rfl
  | phrase ph rest =>
    obtain rfl := Option.some.inj ht
    have hstep : stepPath o.maxNesting ph outer drawn clip =
        .error (ph.refused (Part.path drawn clip).expected) := by
      unfold stepPath
      cases hop : ph.operator? with
      | none => rfl
      | some op =>
        have hop' : operator? ph.token = some op := hop
        simp only [if_neg (hdraw op hop')]
        split
        · rfl
        · next hdrawn =>
          obtain ⟨hclip, hends⟩ := hpaint op hop' hdrawn
          simp only [if_neg hclip, if_neg hends]
    rw [run_phrase]
    show (match stepPath o.maxNesting ph outer drawn clip with
      | .ok pr => _
      | .error f => _) = _
    rw [hstep]
    rfl

/-- An operator of the catalog that comes next is that of a phrase. -/
theorem exists_phrase {feed : Feed} (htidy : feed.Tidy) {t : Token} {op : Operator}
    (ht : feed.keyword? = some t) (hop : operator? t = some op) :
    ∃ ph rest, feed = .phrase ph rest ∧ t = ph.token ∧ ph.operator? = some op := by
  cases feed with
  | phrase ph rest =>
    obtain rfl := Option.some.inj ht
    exact ⟨ph, rest, rfl, rfl, hop⟩
  | finish pending eof =>
    obtain rfl := Option.some.inj ht
    rw [operator?_eof htidy.2] at hop
    exact absurd hop (by simp)
  | fault pending e rest => exact absurd ht (by simp [Feed.keyword?])
  | stuck pending e => exact absurd ht (by simp [Feed.keyword?])

/-- A phrase with a drawing operator, in a path that may still be drawn. -/
theorem stepPath_drawing {ph : Phrase} {op : Operator} (hop : ph.operator? = some op)
    (hcategory : op.category = .pathConstruction) (drawn : List Invocation) :
    stepPath o.maxNesting ph outer drawn none =
      ph.invocation o.maxNesting op.production >>= fun call =>
        .ok (.more (.within (.path (call :: drawn) none) outer)) := by
  unfold stepPath
  rw [hop]
  exact if_pos ⟨hcategory, rfl⟩

theorem run_drawing (o : Options) (outer : List Frame) {ph : Phrase} {op : Operator}
    (hop : ph.operator? = some op) (hcategory : op.category = .pathConstruction)
    (drawn : List Invocation) (rest : Feed) :
    run o (.within (.path drawn none) outer) (.phrase ph rest) =
      match ph.invocation o.maxNesting op.production with
      | .ok call => run o (.within (.path (call :: drawn) none) outer) rest
      | .error f => .error (f.error, ph.leave f.left rest) := by
  rw [run_phrase]
  show (match stepPath o.maxNesting ph outer drawn none with
    | .ok pr => _
    | .error f => _) = _
  rw [stepPath_drawing hop hcategory]
  cases ph.invocation o.maxNesting op.production <;> rfl

theorem runConstruction_drawing (limit : Nat) {ph : Phrase} {op : Operator}
    (hop : ph.operator? = some op) (hcategory : op.category = .pathConstruction)
    (drawn : List Invocation) (rest : Feed) :
    runConstruction limit drawn (.phrase ph rest) =
      match ph.invocation limit op.production with
      | .ok call => runConstruction limit (call :: drawn) rest
      | .error f => .error (f.error, ph.leave f.left rest) := by
  have hfilter : (some op).filter (fun op : Operator => op.category = .pathConstruction) =
      some op := by
    simp [hcategory]
  cases hcall : ph.invocation limit op.production with
  | ok call => simp only [runConstruction, hop, hfilter, hcall]
  | error f => simp only [runConstruction, hop, hfilter, hcall]

/-- Where nothing more is drawn, what has been drawn is the construction. -/
theorem runConstruction_stop (limit : Nat) {feed : Feed} {t : Token} (htidy : feed.Tidy)
    (ht : feed.keyword? = some t)
    (hop : (operator? t).filter (·.category = .pathConstruction) = none)
    (drawn : List Invocation) :
    runConstruction limit drawn feed = runConstruction.stop drawn t feed := by
  cases feed with
  | phrase ph rest =>
    obtain rfl := Option.some.inj ht
    have hop' : ph.operator?.filter (·.category = .pathConstruction) = none := hop
    rw [runConstruction, hop']
  | finish pending eof =>
    obtain rfl := Option.some.inj ht
    rfl
  | fault pending e rest => exact absurd ht (by simp [Feed.keyword?])
  | stuck pending e => exact absurd ht (by simp [Feed.keyword?])

/-- No drawing operator comes next. -/
def DrawsNoMore (feed : Feed) : Prop :=
  ∀ t, feed.keyword? = some t → (operator? t).filter (·.category = .pathConstruction) = none

theorem DrawsNoMore.category {feed : Feed} (h : DrawsNoMore feed) {t : Token} {op : Operator}
    (ht : feed.keyword? = some t) (hop : operator? t = some op) :
    op.category ≠ .pathConstruction := by
  intro hcategory
  have hfilter := h t ht
  rw [hop] at hfilter
  simp [hcategory] at hfilter

/-- What is drawn after some drawing operators is drawn on its own, and in a path. -/
def Draws (o : Options) (outer : List Frame) (drawn : List Invocation) (d : Descent)
    (y : Except ParseError Node) (d' : Descent) : Prop :=
  match y with
  | .ok n => runConstruction o.maxNesting drawn.reverse d.feed = .ok (n, d'.feed) ∧
      d'.counters = d.counters ∧ (drawn = [] → d'.feed.size < d.feed.size) ∧
      ∃ all, all ≠ [] ∧ n = .ofChildren .pathConstruction (all.map .invocation) ∧
        run o (.within (.path drawn.reverse none) outer) d.feed =
          run o (.within (.path all.reverse none) outer) d'.feed ∧ DrawsNoMore d'.feed
  | .error e => runConstruction o.maxNesting drawn.reverse d.feed = .error (e, d'.feed) ∧
      run o (.within (.path drawn.reverse none) outer) d.feed = .error (e, d'.feed)

/-- One more drawing operator, and those after it. -/
theorem drawing_ends (h : Inside d o outer) {ph : Phrase} {rest : Feed}
    (hphrase : d.feed = .phrase ph rest) {op : Operator} (hop : ph.operator? = some op)
    (hcategory : op.category = .pathConstruction) (drawn : List Invocation)
    (hothers : ∀ {d' : Descent}, Inside d' o outer → d'.feed.size < d.feed.size →
      ∀ drawn, Ends (construction drawn) d' (Draws o outer drawn d')) :
    Ends (do
        let call ← invocation op.production
        construction (drawn ++ [call])) d (Draws o outer drawn d) := by
  have hcall := h.invocation op.production
  have hrun := run_drawing o outer hop hcategory drawn.reverse rest
  have hdraw := runConstruction_drawing o.maxNesting hop hcategory drawn.reverse rest
  rw [hphrase] at hcall
  rw [← hphrase] at hrun hdraw
  refine Reads.bind hcall ?_ ?_
  · intro call d' hlater hread hcounters
    obtain ⟨hread, hrest⟩ := Feed.call_phrase_eq_ok_iff.mp hread
    have hless : d'.feed.size < d.feed.size := by
      rw [hphrase, hrest, Feed.size]
      omega
    have hreverse : (drawn ++ [call]).reverse = call :: drawn.reverse := by simp
    simp only [hread, ← hrest, ← hreverse] at hrun hdraw
    refine Ends.mono (hothers (h.later hlater hcounters) hless (drawn ++ [call])) ?_
    intro y d'' hlater' hfound
    cases y with
    | ok n =>
      obtain ⟨hfound, hcounters', -, all, hne, hn, hall, hnext⟩ := hfound
      refine ⟨hdraw.trans hfound, hcounters'.trans hcounters, ?_, all, hne, hn,
        hrun.trans hall, hnext⟩
      intro _
      exact Nat.lt_of_le_of_lt hlater'.size hless
    | error e => exact ⟨hdraw.trans hfound.1, hrun.trans hfound.2⟩
  · intro e d' hread
    obtain ⟨f, hf, rfl, hrest⟩ := Feed.call_phrase_eq_error_iff.mp hread
    simp only [hf, ← hrest] at hrun hdraw
    exact ⟨hdraw, hrun⟩

/-- Nothing more is drawn. -/
theorem stopDrawing_ends (h : Inside d o outer) {t : Token} (ht : d.feed.keyword? = some t)
    (hnext : DrawsNoMore d.feed) (drawn : List Invocation) :
    Ends (stopDrawing drawn) d (Draws o outer drawn d) := by
  have hstop := runConstruction_stop o.maxNesting (tidy_feed d) ht (hnext t ht)
    drawn.reverse
  unfold stopDrawing
  split
  · next hdrawn =>
    subst hdrawn
    refine peekKeyword_again h.consistent ht fun d' hlater hfeed => ?_
    refine Ends.throw hlater.consistent ⟨?_, ?_⟩
    · rw [hstop, hfeed]
      rfl
    · rw [hfeed]
      refine run_path_refused (tidy_feed d) ht ?_ fun op hop hne => absurd rfl hne
      intro op hop hdraws
      exact hnext.category ht hop hdraws.1
  · next hdrawn =>
    refine Ends.pure h.consistent ⟨?_, rfl, fun hnil => absurd hnil hdrawn, drawn, hdrawn, rfl,
      rfl, hnext⟩
    rw [hstop]
    simp [runConstruction.stop, hdrawn]

/-- **Drawing**: the longest run of drawing operators. -/
theorem construction_ends {d : Descent} (h : Inside d o outer) (drawn : List Invocation) :
    Ends (construction drawn) d (Draws o outer drawn d) := by
  rw [construction]
  refine peekOperator_bind h.consistent ?_ ?_
  · intro t d' hlater hcounters hfeed ht
    have h' := h.later hlater hcounters
    have hsame : ∀ y d'', Later d' d'' → Draws o outer drawn d' y d'' →
        Draws o outer drawn d y d'' := by
      intro y d'' _ hdraws
      cases y with
      | ok n =>
        obtain ⟨hfound, hcounters', hsize, hall⟩ := hdraws
        rw [hfeed] at hfound hsize hall
        exact ⟨hfound, hcounters'.trans hcounters, hsize, hall⟩
      | error e =>
        obtain ⟨hfound, hrun⟩ := hdraws
        rw [hfeed] at hfound hrun
        exact ⟨hfound, hrun⟩
    rw [← hfeed] at ht
    split
    · next op hfilter =>
      obtain ⟨hknown, hcategory⟩ := Option.filter_eq_some_iff.mp hfilter
      obtain ⟨ph, rest, hphrase, rfl, hop⟩ := exists_phrase (tidy_feed d') ht hknown
      refine Ends.mono (drawing_ends h' hphrase hop (of_decide_eq_true hcategory) drawn ?_) hsame
      intro d'' h'' hless drawn'
      have hless' : d''.feed.size < d.feed.size := by rwa [← hfeed]
      exact construction_ends h'' drawn'
    · next hfilter =>
      have hnext : DrawsNoMore d'.feed := by
        intro t' ht'
        obtain rfl := Option.some.inj (ht.symm.trans ht')
        exact hfilter
      exact Ends.mono (stopDrawing_ends h' ht hnext drawn) hsame
  · intro e d' hseek
    exact ⟨runConstruction_of_seek_error hseek, run_path_of_seek_error hseek⟩
termination_by d.feed.size

/-- The operator that comes next neither draws nor clips where that may still be
    done. -/
def Finished (clip : Option Invocation) (feed : Feed) : Prop :=
  ∀ t op, feed.keyword? = some t → operator? t = some op →
    ¬ (op.category = .pathConstruction ∧ clip = none) ∧
    ¬ (op.production = .clipping ∧ clip = none)

/-- A phrase with a clipping operator, after what has been drawn. -/
theorem step_clipping (o : Options) (outer : List Frame) {ph : Phrase} {op : Operator}
    (hop : ph.operator? = some op) (hcategory : op.category ≠ .pathConstruction)
    (hproduction : op.production = .clipping) {drawn : List Invocation} (hdrawn : drawn ≠ []) :
    step o ph (.within (.path drawn none) outer) =
      ph.invocation o.maxNesting .clipping >>= fun call =>
        .ok (.more (.within (.path drawn (some call)) outer)) := by
  show stepPath o.maxNesting ph outer drawn none = _
  unfold stepPath
  rw [hop]
  simp only [hcategory, hdrawn, hproduction, false_and, if_false, true_and, if_true]

/-- A phrase with an operator that paints or ends a path, after what has been drawn. -/
theorem step_painting (o : Options) (outer : List Frame) {ph : Phrase} {op : Operator}
    (hop : ph.operator? = some op) {clip : Option Invocation}
    (hdraw : ¬ (op.category = .pathConstruction ∧ clip = none))
    (hclip : ¬ (op.production = .clipping ∧ clip = none))
    (hproduction : op.production = .pathPainting ∨ op.production = .endPath)
    {drawn : List Invocation} (hdrawn : drawn ≠ []) :
    step o ph (.within (.path drawn clip) outer) =
      ph.invocation o.maxNesting op.production >>= fun call =>
        .ok (deliver (pathNode drawn clip call) outer) := by
  show stepPath o.maxNesting ph outer drawn clip = _
  unfold stepPath
  rw [hop]
  simp only [if_neg hdraw, if_neg hdrawn, if_neg hclip, if_pos hproduction]

theorem clipping_ends (h : Inside d o outer) {drawn : List Invocation} (hdrawn : drawn ≠ [])
    (hnext : DrawsNoMore d.feed) :
    Ends clipping d fun y d' =>
      match y with
      | .ok calls => ∃ clip, calls = clip.toList ∧ d'.counters = d.counters ∧
          run o (.within (.path drawn none) outer) d.feed =
            run o (.within (.path drawn clip) outer) d'.feed ∧ Finished clip d'.feed
      | .error e => run o (.within (.path drawn none) outer) d.feed = .error (e, d'.feed) := by
  refine peekOperator_bind h.consistent ?_ ?_
  · intro t d' hlater hcounters hfeed ht
    have h' := h.later hlater hcounters
    rw [← hfeed] at ht hnext ⊢
    split
    · next op hfilter =>
      obtain ⟨hknown, hproduction⟩ := Option.filter_eq_some_iff.mp hfilter
      obtain ⟨ph, rest, hphrase, rfl, hop⟩ := exists_phrase (tidy_feed d') ht hknown
      have hstep := step_clipping o outer hop (hnext.category ht hknown)
        (of_decide_eq_true hproduction) hdrawn
      have hrun := run_phrase_call hstep (fun _ _ => left_of_ok) o.maxNesting
        (.keywordOf .clipping) rest
      rw [← hphrase] at hrun
      refine Ends.call (h'.invocation .clipping) hrun ?_ ?_
      · intro call d₂ hlater₂ hcounters₂ hsize₂ hrun₂
        refine Ends.pure hlater₂.consistent
          ⟨some call, rfl, hcounters₂.trans hcounters, hrun₂, ?_⟩
        intro t' op' ht' hop'
        simp
      · intro e d₂ hrun₂
        exact hrun₂
    · next hfilter =>
      refine Ends.pure h'.consistent ⟨none, rfl, hcounters, rfl, ?_⟩
      intro t' op ht' hop
      obtain rfl := Option.some.inj (ht.symm.trans ht')
      refine ⟨fun hdraw => hnext.category ht hop hdraw.1, fun hclip => ?_⟩
      rw [hop] at hfilter
      simp [hclip.1] at hfilter
  · intro e d' hseek
    exact run_path_of_seek_error hseek

theorem painting_ends (h : Inside d o outer) {drawn : List Invocation} (hdrawn : drawn ≠ [])
    {clip : Option Invocation} (hnext : Finished clip d.feed) :
    Ends painting d fun y d' =>
      match y with
      | .ok call => d'.counters = d.counters ∧
          run o (.within (.path drawn clip) outer) d.feed =
            goOn o d'.feed (deliver (pathNode drawn clip call) outer)
      | .error e => run o (.within (.path drawn clip) outer) d.feed = .error (e, d'.feed) := by
  refine peekOperator_bind h.consistent ?_ ?_
  · intro t d' hlater hcounters hfeed ht
    have h' := h.later hlater hcounters
    rw [← hfeed] at ht hnext ⊢
    split
    · next op hfilter =>
      obtain ⟨hknown, hproduction⟩ := Option.filter_eq_some_iff.mp hfilter
      obtain ⟨ph, rest, hphrase, rfl, hop⟩ := exists_phrase (tidy_feed d') ht hknown
      obtain ⟨hdraw, hclip⟩ := hnext _ op ht hknown
      have hstep := step_painting o outer hop hdraw hclip
        (of_decide_eq_true hproduction) hdrawn
      have hrun := run_phrase_call hstep (fun _ _ => left_of_ok) o.maxNesting
        (.keywordOf op.production) rest
      rw [← hphrase] at hrun
      refine Ends.mono (call_ends (h'.invocation op.production) hrun) ?_
      intro y d₂ hlater₂ hfound
      cases y with
      | ok call => exact ⟨hfound.1.trans hcounters, hfound.2.2⟩
      | error e => exact hfound
    · next hfilter =>
      refine peekKeyword_again h'.consistent ht fun d₂ hlater₂ hfeed₂ => ?_
      refine Ends.throw hlater₂.consistent ?_
      rw [hfeed₂]
      have hexpected : (Part.path drawn clip).expected = .pathPainting := by
        cases drawn with
        | nil => exact absurd rfl hdrawn
        | cons call calls => rfl
      rw [← hexpected]
      refine run_path_refused (tidy_feed d') ht (fun op hop => (hnext t op ht hop).1) ?_
      intro op hop hne
      refine ⟨(hnext t op ht hop).2, fun hpaint => ?_⟩
      rw [hop] at hfilter
      rcases hpaint with hpaint | hpaint <;> simp [hpaint] at hfilter
  · intro e d' hseek
    exact run_path_of_seek_error hseek

theorem pathObject_performs (h : Inside d o outer) :
    Performs o outer pathObject d (run o (.within (.path [] none) outer) d.feed) := by
  refine Ends.bind (construction_ends h []) ?_ ?_
  · intro n d₁ hlater₁ hfound₁
    obtain ⟨-, hcounters₁, hsize₁, drawn, hdrawn, rfl, hrun₁, hnext₁⟩ := hfound₁
    have h₁ := h.later hlater₁ hcounters₁
    have hreverse : drawn.reverse ≠ [] := by simpa using hdrawn
    refine Ends.bind (clipping_ends h₁ hreverse hnext₁) ?_ ?_
    · intro calls d₂ hlater₂ hfound₂
      obtain ⟨clip, rfl, hcounters₂, hrun₂, hfinished⟩ := hfound₂
      have h₂ := h₁.later hlater₂ hcounters₂
      refine Ends.bind (painting_ends h₂ hreverse hfinished) ?_ ?_
      · intro paint d₃ hlater₃ hfound₃
        obtain ⟨hcounters₃, hrun₃⟩ := hfound₃
        refine Ends.pure hlater₃.consistent ⟨hrun₁.trans (hrun₂.trans ?_),
          hcounters₃.trans (hcounters₂.trans hcounters₁), ?_⟩
        · rw [hrun₃, pathNode, List.reverse_reverse]
        · have hsize := hsize₁ rfl
          have hsize₂ := hlater₂.size
          have hsize₃ := hlater₃.size
          omega
      · intro e d₃ hlater₃ hrun₃
        exact hrun₁.trans (hrun₂.trans hrun₃)
    · intro e d₂ hlater₂ hrun₂
      exact hrun₁.trans hrun₂
  · intro e d₁ hlater₁ hfound₁
    exact hfound₁.2

end Items

end Descent

end PageContent
