import PageContent.Proofs.Failures

/-! # Runs over the beginning of a stream

    What a recogniser does with a stream whose beginning it has accepted, and
    whose end has been replaced.

    * **One state**: after the phrases of the beginning the recogniser is in one
      state, whatever follows.
    * **Keyword first**: what a step makes of a phrase depends on its keyword.
      Only then the operands are read.
    * **First error**: a wrong number of operands, a fault, or tokens in front of
      the end of the stream are reported as what they are.
-/

namespace PageContent

namespace RecognizerState

/-- The frames that are open. -/
def frames : RecognizerState → List Frame
  | .between top outer => top :: outer
  | .within _ outer => outer

/-- The stream has had no item, and one may begin now. -/
def isFresh : RecognizerState → Bool
  | .between top _ => top.isFresh
  | .within _ _ => false

end RecognizerState

/-- The outermost frame is that of the stream, and no other one is. Those of sections
    have an opening operator. -/
inductive Grounded : List Frame → Prop where
  | stream (nodes : List Node) : Grounded [⟨.stream, nodes⟩]
  | within {s : Section} {nodes : List Node} {outer : List Frame} (hne : nodes ≠ [])
      (h : Grounded outer) : Grounded (⟨.within s, nodes⟩ :: outer)

namespace Recognizer

variable {o : Options} {ph : Phrase} {state : RecognizerState}

/-! ## The states in between -/

/-- The recogniser is not about to take whatever comes as an operator outside the
    catalog. It takes one only when it meets it. -/
def Decided (state : RecognizerState) : Prop :=
  ∀ outer, state ≠ .within .undefined outer

theorem decided_between (top : Frame) (outer : List Frame) : Decided (.between top outer) := by
  intro outer'
  simp

theorem decided_within {part : Part} (h : part ≠ .undefined) (outer : List Frame) :
    Decided (.within part outer) := by
  intro outer' heq
  exact h (RecognizerState.within.inj heq).1

/-- What a phrase in a part leads to, with the frames around the part. -/
inductive Leads (outer : List Frame) : Progress → Prop where
  /-- The part goes on as another one, which is not an operator by itself. -/
  | part {p : Part} (hp : p ≠ .undefined) : Leads outer (.more (.within p outer))
  | opened (s : Section) (call : Invocation) :
      Leads outer (.more (.between ⟨.within s, [.invocation call]⟩ outer))
  /-- The item is complete. -/
  | item (n : Node) : Leads outer (deliver n outer)

theorem leads_of_stepPart {part : Part} {outer : List Frame} {pr : Progress}
    (h : stepPart o.maxNesting ph outer part = .ok pr) : Leads outer pr := by
  cases part with
  -- a path goes on, is clipped, or is complete
  | path drawn clip =>
    obtain ⟨op, -, call, -, ⟨-, -, rfl⟩ | ⟨-, -, -, rfl⟩ | ⟨-, -, rfl⟩⟩ :=
      stepPath_eq_ok_iff.mp h
    · exact Leads.part (by simp)
    · exact Leads.part (by simp)
    · exact Leads.item _
  | opening s =>
    obtain ⟨call, -, hopen⟩ := bind_eq_ok_iff.mp h
    obtain ⟨-, rfl⟩ := openSection_eq_ok_iff.mp hopen
    exact Leads.opened s call
  | single p =>
    obtain ⟨call, -, hpr⟩ := bind_eq_ok_iff.mp h
    exact Except.ok.inj hpr ▸ Leads.item _
  | undefined =>
    obtain ⟨call, -, hpr⟩ := bind_eq_ok_iff.mp h
    exact Except.ok.inj hpr ▸ Leads.item _
  | image =>
    obtain ⟨call, -, hpr⟩ := bind_eq_ok_iff.mp h
    exact Except.ok.inj hpr ▸ Leads.part (by simp)
  | imageData begin =>
    obtain ⟨call, -, hpr⟩ := bind_eq_ok_iff.mp h
    exact Except.ok.inj hpr ▸ Leads.part (by simp)
  | imageEnd begin data =>
    obtain ⟨call, -, hpr⟩ := bind_eq_ok_iff.mp h
    exact Except.ok.inj hpr ▸ Leads.item _

/-- A step leads on from the frames that are open, or closes the first of them. -/
theorem leads_of_step {pr : Progress} (h : step o ph state = .ok pr) :
    (∃ part outer, state = .within part outer ∧ Leads outer pr) ∨
      ∃ top outer, state = .between top outer ∧ (Leads (top :: outer) pr ∨
        ∃ s n, top.enclosure = .within s ∧ pr = deliver n outer) := by
  cases state with
  | within part outer => exact .inl ⟨part, outer, rfl, leads_of_stepPart h⟩
  | between top outer =>
    refine .inr ⟨top, outer, rfl, ?_⟩
    rcases step_between_eq_ok_iff.mp h with hitem | ⟨s, call, htop, -, hpr⟩
    · obtain ⟨part, -, hpart⟩ := stepItem_eq_ok_iff.mp hitem
      exact .inl (leads_of_stepPart hpart)
    · exact .inr ⟨s, _, htop, hpr.symm⟩

/-- What a step leads to in a content stream: reading goes on, in a stream that is open
    and has had its first item if it is between two. -/
inductive Settled : Progress → Prop where
  | more {state : RecognizerState} (hdecided : Decided state) (hgrounded : Grounded state.frames)
      (hfresh : state.isFresh = false) : Settled (.more state)

theorem grounded_start : Grounded (start .content).frames :=
  Grounded.stream []

theorem grounded_push {fr : Frame} {outer : List Frame} (h : Grounded (fr :: outer)) (n : Node) :
    Grounded (fr.push n :: outer) := by
  cases h with
  | stream nodes => exact Grounded.stream (n :: nodes)
  | within hne h => exact Grounded.within (List.cons_ne_nil n _) h

theorem settled_deliver {outer : List Frame} (h : Grounded outer) (n : Node) :
    Settled (deliver n outer) := by
  match outer, h with
  | fr :: outer, h =>
    refine Settled.more (decided_between _ outer) (grounded_push h n) ?_
    show ((fr.enclosure == .stream) && (n :: fr.nodes).isEmpty) = false
    rw [List.isEmpty_cons, Bool.and_false]

theorem settled_of_leads {outer : List Frame} (h : Grounded outer) {pr : Progress}
    (hleads : Leads outer pr) : Settled pr := by
  cases hleads with
  | part hp => exact Settled.more (decided_within hp outer) h rfl
  | opened s call =>
    exact Settled.more (decided_between _ outer) (Grounded.within (List.cons_ne_nil _ _) h) rfl
  | item n => exact settled_deliver h n

theorem settled_of_step (h : Grounded state.frames) {pr : Progress}
    (hstep : step o ph state = .ok pr) : Settled pr := by
  rcases leads_of_step hstep with
    ⟨part, outer, rfl, hleads⟩ | ⟨top, outer, rfl, hleads | ⟨s, n, htop, rfl⟩⟩
  · exact settled_of_leads h hleads
  · exact settled_of_leads h hleads
  · -- a section is closed, and there is a frame around it
    have hframes : Grounded (top :: outer) := h
    cases hframes with
    | stream nodes => exact absurd htop (by simp)
    | within hne houter => exact settled_deliver houter n

/-- A state in which the recogniser of a content stream can be between two
    phrases. -/
structure Underway (o : Options) (state : RecognizerState) : Prop where
  exhausts : Exhausts o state
  decided : Decided state
  grounded : Grounded state.frames

theorem underway_start : Underway o (start .content) :=
  ⟨exhausts_start, decided_between _ _, grounded_start⟩

/-- A step leads from such a state to another one. -/
theorem underway_step (hph : ph.Proper) (h : Underway o state) {pr : Progress}
    (hstep : step o ph state = .ok pr) : ∃ state', pr = .more state' ∧ Underway o state' := by
  obtain ⟨state', rfl, hexhausts⟩ := exhausts_step hph h.exhausts hstep
  cases settled_of_step h.grounded hstep with
  | more hdecided hgrounded hfresh => exact ⟨state', rfl, hexhausts, hdecided, hgrounded⟩

/-- A run that succeeds has made its first step. -/
theorem exists_step_of_run (hph : ph.Proper) (h : Underway o state) {rest : Feed}
    {r : Node × Feed} (hrun : run o state (.phrase ph rest) = .ok r) :
    ∃ state', step o ph state = .ok (.more state') ∧ Underway o state' ∧
      run o state' rest = .ok r := by
  unfold run at hrun
  cases hstep : step o ph state with
  | error f =>
    rw [hstep] at hrun
    exact absurd hrun (by simp)
  | ok pr =>
    obtain ⟨state', rfl, hstate'⟩ := underway_step hph h hstep
    rw [hstep] at hrun
    exact ⟨state', rfl, hstate', hrun⟩

/-- A run that succeeds goes from the first phrases of a stream to a state that
    does not depend on what follows them. -/
theorem exists_state_of_run {phs : List Phrase} (hphs : ∀ ph ∈ phs, ph.Proper)
    (h : Underway o state) {feed : Feed} {r : Node × Feed}
    (hrun : run o state (Feed.ofPhrases phs feed) = .ok r) :
    ∃ state', Underway o state' ∧ run o state' feed = .ok r ∧
      ∀ feed', run o state (Feed.ofPhrases phs feed') = run o state' feed' := by
  -- by induction on the phrases; the state after each is the same for every feed
  induction phs generalizing state with
  | nil => exact ⟨state, h, hrun, fun feed' => rfl⟩
  | cons ph phs ih =>
    obtain ⟨state₁, hstep, hstate₁, hrest⟩ := exists_step_of_run (hphs ph (by simp)) h hrun
    obtain ⟨state', hstate', hfeed, hall⟩ :=
      ih (fun p hp => hphs p (by simp [hp])) hstate₁ hrest
    refine ⟨state', hstate', hfeed, ?_⟩
    intro feed'
    show run o state (.phrase ph (Feed.ofPhrases phs feed')) = _
    rw [run, hstep]
    exact hall feed'

/-! ## Keyword first -/

/-- Reading an invocation and going on with it. -/
def ReadsThen (o : Options) (ph : Phrase) (f : Phrase → Except Failure Progress) : Prop :=
  ∃ next : Invocation → Except Failure Progress,
    (∃ op, ph.operator? = some op ∧ ∀ ph', ph'.keyword = ph.keyword →
      f ph' = ph'.invocation o.maxNesting op.production >>= next) ∨
    (ph.operator? = none ∧ ∀ ph', ph'.keyword = ph.keyword →
      f ph' = ph'.undefinedInvocation o.maxNesting >>= next)

theorem operator?_of_keyword {ph ph' : Phrase} (h : ph'.keyword = ph.keyword) :
    ph'.operator? = ph.operator? := by
  unfold Phrase.operator?
  rw [h]

/-- An invocation of a production is one of the production of its operator. -/
theorem exists_operator_of_invocation {p : Production} {call : Invocation}
    (h : ph.invocation o.maxNesting p = .ok call) :
    ∃ op, ph.operator? = some op ∧ op.production = p := by
  obtain ⟨op, xs, hop, hp, -⟩ := Phrase.invocation_eq_ok_iff.mp h
  exact ⟨op, hop, hp⟩

theorem readsThen_of_bind (p : Production) (next : Invocation → Except Failure Progress)
    {f : Phrase → Except Failure Progress} {pr : Progress} (h : f ph = .ok pr)
    (hf : ∀ ph' : Phrase, ph'.keyword = ph.keyword →
      f ph' = ph'.invocation o.maxNesting p >>= next) : ReadsThen o ph f := by
  rw [hf ph rfl] at h
  obtain ⟨call, hcall, -⟩ := bind_eq_ok_iff.mp h
  obtain ⟨op, hop, rfl⟩ := exists_operator_of_invocation hcall
  exact ⟨next, .inl ⟨op, hop, hf⟩⟩

/-- Two functions that agree on the phrases with the keyword. -/
theorem ReadsThen.congr {f g : Phrase → Except Failure Progress} (h : ReadsThen o ph f)
    (hg : ∀ ph' : Phrase, ph'.keyword = ph.keyword → g ph' = f ph') : ReadsThen o ph g := by
  obtain ⟨next, hreads⟩ := h
  refine ⟨next, ?_⟩
  rcases hreads with ⟨op, hop, hall⟩ | ⟨hop, hall⟩
  · exact .inl ⟨op, hop, fun ph' hkeyword => (hg ph' hkeyword).trans (hall ph' hkeyword)⟩
  · exact .inr ⟨hop, fun ph' hkeyword => (hg ph' hkeyword).trans (hall ph' hkeyword)⟩

theorem readsThen_stepPath {outer : List Frame} {drawn : List Invocation}
    {clip : Option Invocation} {pr : Progress}
    (h : stepPath o.maxNesting ph outer drawn clip = .ok pr) :
    ReadsThen o ph fun ph' => stepPath o.maxNesting ph' outer drawn clip := by
  obtain ⟨op, hop, -⟩ := stepPath_eq_ok_iff.mp h
  -- the branch that was taken is taken for every phrase with this keyword
  have hbranch : ∀ ph' : Phrase, ph'.keyword = ph.keyword → ph'.operator? = some op := by
    intro ph' hkeyword
    rw [operator?_of_keyword hkeyword, hop]
  by_cases hdraw : op.category = .pathConstruction ∧ clip = none
  · apply readsThen_of_bind op.production
      (fun call => .ok (.more (.within (.path (call :: drawn) none) outer))) h
    intro ph' hkeyword
    simp only [stepPath, hbranch ph' hkeyword, if_pos hdraw]
  by_cases hne : drawn = []
  · simp [stepPath, hop, hdraw, hne] at h
  by_cases hclip : op.production = .clipping ∧ clip = none
  · apply readsThen_of_bind op.production
      (fun call => .ok (.more (.within (.path drawn (some call)) outer))) h
    intro ph' hkeyword
    simp only [stepPath, hbranch ph' hkeyword, if_neg hdraw, if_neg hne, if_pos hclip]
  by_cases hpaint : op.production = .pathPainting ∨ op.production = .endPath
  · apply readsThen_of_bind op.production
      (fun call => .ok (deliver (pathNode drawn clip call) outer)) h
    intro ph' hkeyword
    simp only [stepPath, hbranch ph' hkeyword, if_neg hdraw, if_neg hne, if_neg hclip,
      if_pos hpaint]
  · simp only [stepPath, hop, if_neg hdraw, if_neg hne, if_neg hclip, if_neg hpaint] at h
    exact absurd h (by simp)

theorem readsThen_stepPart {part : Part} (hpart : part = .undefined → ph.operator? = none)
    {outer : List Frame} {pr : Progress} (h : stepPart o.maxNesting ph outer part = .ok pr) :
    ReadsThen o ph fun ph' => stepPart o.maxNesting ph' outer part := by
  cases part with
  | opening s => exact readsThen_of_bind s.opening _ h fun ph' _ => rfl
  | single p => exact readsThen_of_bind p _ h fun ph' _ => rfl
  | undefined => exact ⟨_, .inr ⟨hpart rfl, fun ph' _ => rfl⟩⟩
  | path drawn clip => exact readsThen_stepPath h
  | image => exact readsThen_of_bind .beginInlineImage _ h fun ph' _ => rfl
  | imageData begin => exact readsThen_of_bind .inlineImageData _ h fun ph' _ => rfl
  | imageEnd begin data => exact readsThen_of_bind .endInlineImage _ h fun ph' _ => rfl

theorem readsThen_stepItem {top : Frame} {outer : List Frame} {pr : Progress}
    (h : stepItem o ph top outer = .ok pr) :
    ReadsThen o ph fun ph' => stepItem o ph' top outer := by
  obtain ⟨part, hbegins, hstep⟩ := stepItem_eq_ok_iff.mp h
  have hpart : part = .undefined → ph.operator? = none := by
    intro heq
    subst heq
    cases hbegins with
    | known hop hrole => cases Operator.mayBegin_of_role hrole
    | undefined hop hw ho => exact hop
  -- the part is found by the keyword alone
  have hsame : ∀ ph' : Phrase, ph'.keyword = ph.keyword →
      stepItem o ph' top outer = stepPart o.maxNesting ph' (top :: outer) part := by
    intro ph' hkeyword
    apply stepItem_of_begins
    cases hbegins with
    | known hop hrole => exact Begins.known ((operator?_of_keyword hkeyword).trans hop) hrole
    | undefined hop hw ho => exact Begins.undefined ((operator?_of_keyword hkeyword).trans hop) hw ho
  exact (readsThen_stepPart hpart hstep).congr hsame

/-- **Keyword first**: a step that succeeds has read an invocation, and would
    read one for every phrase with this keyword. -/
theorem readsThen_step {pr : Progress} (hstate : Decided state)
    (h : step o ph state = .ok pr) : ReadsThen o ph fun ph' => step o ph' state := by
  cases state with
  | within part outer =>
    have hpart : part = .undefined → ph.operator? = none := by
      intro heq
      exact absurd (by rw [heq]) (hstate outer)
    exact readsThen_stepPart hpart h
  | between top outer =>
    obtain ⟨enclosure, nodes⟩ := top
    cases enclosure with
    | stream => exact readsThen_stepItem h
    | within s =>
      -- whether the section is closed depends on the keyword alone
      have hcloses : ∀ ph' : Phrase, ph'.keyword = ph.keyword →
          closes ph' (.within s) = closes ph (.within s) := by
        intro ph' hkeyword
        simp only [closes, operator?_of_keyword hkeyword]
      by_cases hclosing : closes ph (.within s) = true
      · apply readsThen_of_bind s.closing (fun call =>
          .ok (deliver (Frame.push ⟨.within s, nodes⟩ (.invocation call)).node outer)) h
        intro ph' hkeyword
        have hph' := (hcloses ph' hkeyword).trans hclosing
        simp only [step, if_pos hph']
      · have hsame : ∀ ph' : Phrase, ph'.keyword = ph.keyword →
            step o ph' (.between ⟨.within s, nodes⟩ outer) =
              stepItem o ph' ⟨.within s, nodes⟩ outer := by
          intro ph' hkeyword
          have hph' : ¬ closes ph' (.within s) = true := by rwa [hcloses ph' hkeyword]
          simp only [step, if_neg hph']
        rw [hsame ph rfl] at h
        exact (readsThen_stepItem h).congr hsame

/-! ## The first error -/

/-- A step that succeeds has read all tokens in front of the operator. -/
theorem operands_of_step (hstate : Decided state) {pr : Progress}
    (h : step o ph state = .ok pr) : ∃ xs, ph.operands o.maxNesting = .ok xs := by
  obtain ⟨next, ⟨op, -, hall⟩ | ⟨-, hall⟩⟩ := readsThen_step hstate h
  · obtain ⟨call, hcall, -⟩ := bind_eq_ok_iff.mp ((hall ph rfl).symm.trans h)
    obtain ⟨op, xs, -, -, hxs, -⟩ := Phrase.invocation_eq_ok_iff.mp hcall
    exact ⟨xs, hxs⟩
  · obtain ⟨call, hcall, -⟩ := bind_eq_ok_iff.mp ((hall ph rfl).symm.trans h)
    obtain ⟨xs, hxs, -⟩ := Phrase.undefinedInvocation_eq_ok_iff.mp hcall
    exact ⟨xs, hxs⟩

/-- The operands of a step that succeeds fit its operator. -/
theorem fits_of_step (hstate : Decided state) {pr : Progress} (h : step o ph state = .ok pr)
    {op : Operator} (hop : ph.operator? = some op) :
    ∃ xs, ph.operands o.maxNesting = .ok xs ∧ op.arity.Fits (xs.map (·.1)) := by
  obtain ⟨next, ⟨op', hop', hall⟩ | ⟨hnone, -⟩⟩ := readsThen_step hstate h
  · obtain ⟨call, hcall, -⟩ := bind_eq_ok_iff.mp ((hall ph rfl).symm.trans h)
    obtain ⟨op'', xs, hop'', -, hxs, hfits, -⟩ := Phrase.invocation_eq_ok_iff.mp hcall
    rw [hop, Option.some.injEq] at hop''
    exact ⟨xs, hxs, hop'' ▸ hfits⟩
  · exact absurd (hop.symm.trans hnone) (by simp)

/-- **Wrong number of operands**: where a phrase is accepted, one with the same
    operator and too many or too few operands is an arity error. -/
theorem arity_of_step (hstate : Decided state) {pr : Progress} (h : step o ph state = .ok pr)
    {op : Operator} (hop : ph.operator? = some op) {ph' : Phrase}
    (hkeyword : ph'.keyword = ph.keyword) {xs : List (Operand × Span)}
    (hxs : ph'.operands o.maxNesting = .ok xs)
    (hcount : op.arity.acceptsCount xs.length = false) :
    ∃ f, step o ph' state = .error f ∧ f.error.kind = .arity := by
  obtain ⟨next, ⟨op', hop', hall⟩ | ⟨hnone, -⟩⟩ := readsThen_step hstate h
  · rw [hop, Option.some.injEq] at hop'
    subst hop'
    have hop' : ph'.operator? = some op := (operator?_of_keyword hkeyword).trans hop
    have hcount' : op.arity.acceptsCount (xs.map (·.1)).length = false := by
      rwa [List.length_map]
    obtain ⟨e, hcheck, hkind⟩ :=
      @Operator.check_of_wrong_count op (xs.map (·.1)) (xs.map (·.2)) ph'.place hcount'
    have hfilter : ph'.operator?.filter (·.production = op.production) = some op := by
      rw [hop']
      simp [Option.filter]
    -- the operands are read without an error, and refused by the check
    have hinv : ph'.invocation o.maxNesting op.production = .error ⟨e, none⟩ := by
      unfold Phrase.invocation
      simp only [hxs, hfilter, hcheck]
    refine ⟨⟨e, none⟩, (hall ph' hkeyword).trans ?_, hkind⟩
    rw [hinv]
    rfl
  · exact absurd (hop.symm.trans hnone) (by simp)

/-- **Faults**: a fault is reported as it is, unless the tokens in front of it
    are refused first. -/
theorem meetFault_eq {limit : Nat} {pending : List Token} {e : LexicalError}
    (h : ∀ e' left, OperandReader.start.run limit pending ≠ .refused e' left) :
    meetFault limit pending e state = (.lexical e, none) := by
  rcases meetFault_cases limit pending e state with hmet | ⟨e', left, hrun, -⟩
  · exact hmet
  · exact absurd hrun (h e' left)

theorem lexical_of_fault {pending : List Token} {e : LexicalError} {feed : Feed}
    (hfeed : (∃ rest, feed = .fault pending e rest) ∨ feed = .stuck pending e)
    (h : ∀ e' left, OperandReader.start.run o.maxNesting pending ≠ .refused e' left) :
    ∃ left, run o state feed = .error (.lexical e, left) := by
  have hmeet := @meetFault_eq state o.maxNesting pending e h
  rcases hfeed with ⟨rest, rfl⟩ | rfl
  · unfold run
    rw [hmeet]
    exact ⟨_, rfl⟩
  · unfold run
    rw [hmeet]
    exact ⟨_, rfl⟩

/-- **The end of the stream**: where it is accepted, no tokens are left, and any
    tokens in front of it are a grammar error. -/
theorem grammar_of_finish {eof : Token} {pending : List Token} {r : Node × Feed}
    (h : run o state (.finish pending eof) = .ok r) {pending' : List Token}
    (hne : pending' ≠ []) (eof' : Token) :
    pending = [] ∧ ∃ e left, run o state (.finish pending' eof') = .error (e, left) ∧
      e.kind = .grammar := by
  unfold run at h
  cases hfin : finish o pending eof state with
  | error failure =>
    rw [hfin] at h
    exact absurd h (by simp)
  | ok n =>
    cases state with
    | within part outer => exact absurd hfin finish_within
    | between top outer =>
      -- the tokens are looked at before the frames are
      have hcons : ∀ (t : Token) (ts : List Token) (eof : Token),
          ∃ e, finish o (t :: ts) eof (.between top outer) = .error (e, t :: ts) ∧
            e.kind = .grammar := by
        intro t ts eof
        unfold finish finishFrames
        exact ⟨_, rfl, rfl⟩
      cases pending with
      | cons t ts =>
        obtain ⟨e, he, -⟩ := hcons t ts eof
        exact absurd (hfin.symm.trans he) (by simp)
      | nil =>
        refine ⟨rfl, ?_⟩
        obtain ⟨t, ts, rfl⟩ := List.exists_cons_of_ne_nil hne
        obtain ⟨e, he, hkind⟩ := hcons t ts eof'
        refine ⟨e, .finish (t :: ts) eof', ?_, hkind⟩
        rw [run, he]

/-! ## Beginnings of a stream -/

/-- `Passed o phs state`: after the phrases `phs` of a content stream the
    recogniser is in `state`. -/
structure Passed (o : Options) (phs : List Phrase) (state : RecognizerState) : Prop where
  underway : Underway o state
  same : ∀ ts feed, run o (start .content) (Feed.ofTokens (phs.flatMap Phrase.tokens ++ ts) feed) =
    run o state (Feed.ofTokens ts feed)

theorem passed_nil : Passed o [] (start .content) :=
  ⟨underway_start, fun _ _ => rfl⟩

theorem run_of_parse {bytes : List UInt8} {t : ContentStream}
    (h : ContentStream.parse o bytes = .ok t) {ts : List Token} {eof : Token}
    (htokens : tokenize bytes = .ok (ts ++ [eof])) :
    ∃ r, run o (start .content) (Feed.ofTokens ts (.finish [] eof)) = .ok r := by
  have hcontent := (ContentStream.parse_iff_of_tokenize htokens).mp h
  exact ⟨(t.root, _), (run_eq_ok_iff _).mpr ⟨[], demands_start_iff.mpr hcontent, rfl⟩⟩

/-- An accepted stream can be interrupted anywhere: the recogniser has passed the
    complete phrases, and some tokens are pending. -/
theorem exists_passed {bytes : List UInt8} {t : ContentStream}
    (h : ContentStream.parse o bytes = .ok t) {ts us : List Token} {eof : Token}
    (htokens : tokenize bytes = .ok (ts ++ us ++ [eof])) :
    ∃ phs pending state, ts = phs.flatMap Phrase.tokens ++ pending ∧ NoOperator pending ∧
      Passed o phs state ∧
      ∃ r, run o state (Feed.ofTokens (pending ++ us) (.finish [] eof)) = .ok r := by
  obtain ⟨phs, pending, rfl, hphs, hpending⟩ := exists_phrases ts
  obtain ⟨r, hrun⟩ := run_of_parse h htokens
  have hphrases : ∀ ts feed, Feed.ofTokens (phs.flatMap Phrase.tokens ++ ts) feed =
      Feed.ofPhrases phs (Feed.ofTokens ts feed) := by
    intro ts feed
    rw [Feed.ofTokens_append, Feed.ofTokens_phrases hphs]
  rw [List.append_assoc, hphrases] at hrun
  obtain ⟨state, hstate, hrest, hall⟩ := exists_state_of_run hphs underway_start hrun
  refine ⟨phs, pending, state, rfl, hpending, ⟨hstate, ?_⟩, _, hrest⟩
  intro ts feed
  rw [hphrases, hall]

/-- A stream that begins in the same way has the error that the recogniser meets
    after its beginning. -/
theorem Passed.parse_eq_error {phs : List Phrase} (h : Passed o phs state) {bytes : List UInt8}
    {ts : List Token} {feed : Feed}
    (hfeed : Feed.ofBytes bytes = Feed.ofTokens (phs.flatMap Phrase.tokens ++ ts) feed)
    {e : ParseError} {left : Feed} (hrun : run o state (Feed.ofTokens ts feed) = .error (e, left)) :
    ContentStream.parse o bytes = .error e := by
  rw [ContentStream.parse_eq_error_iff_run]
  refine ⟨left, ?_⟩
  rw [hfeed, h.same, hrun]

/-- Tokens in front of an operator are pending there. -/
theorem ofTokens_operator {pending : List Token} (h : NoOperator pending) {t : Token}
    {keyword : String} (ht : t.lexeme = .operator keyword) (ts : List Token) (feed : Feed) :
    Feed.ofTokens (pending ++ t :: ts) feed =
      .phrase ⟨pending, keyword, t.span⟩ (Feed.ofTokens ts feed) := by
  rw [Feed.ofTokens_append, Feed.ofTokens_pending h]
  show (Feed.cons t (Feed.ofTokens ts feed)).prepend pending = _
  simp [Feed.cons, ht, Feed.prepend]

/-- A run that meets a phrase which is not accepted. -/
theorem run_phrase_error {rest : Feed} {f : Failure} (h : step o ph state = .error f) :
    ∃ left, run o state (.phrase ph rest) = .error (f.error, left) := by
  rw [run, h]
  exact ⟨_, rfl⟩

end Recognizer

end PageContent
