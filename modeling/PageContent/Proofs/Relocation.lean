import PageContent.Proofs.Prefixes

/-! # The recogniser and places

    The recogniser looks at lexemes. The places of tokens only go into the spans of its
    answers.

    * **Relocation**: a change of places that commutes with joins. The stream may also
      have items before the first token.
    * **Commutation**: each function of the recogniser answers a relocated question with
      the relocated answer. There is one lemma for each function.
    * **Glyph descriptions** are the exception. They are only allowed before the first
      item, so that they tell a stream that has items from one that has none.
-/

namespace PageContent

/-! ## Trees with other places -/

/-- The call with another span. -/
def Invocation.mapSpan (g : Span → Span) (call : Invocation) : Invocation :=
  { call with span := g call.span }

namespace Node

mutual

/-- The tree with other spans. -/
def mapSpans (g : Span → Span) : Node → Node
  | invocation call => .invocation (call.mapSpan g)
  | group p cs s => .group p (mapSpansAll g cs) (g s)

def mapSpansAll (g : Span → Span) : List Node → List Node
  | [] => []
  | c :: cs => c.mapSpans g :: mapSpansAll g cs

end

theorem mapSpansAll_eq_map (g : Span → Span) (cs : List Node) :
    mapSpansAll g cs = cs.map (mapSpans g) := by
  induction cs with
  | nil => rfl
  | cons c cs ih => rw [mapSpansAll, ih, List.map_cons]

@[simp] theorem span_mapSpans (g : Span → Span) (n : Node) : (n.mapSpans g).span = g n.span := by
  cases n <;> rfl

end Node

/-! ## Relocations -/

/-- A change of places, with the items that the stream has already. -/
structure Relocation where
  /-- Where something lies after the change. -/
  span : Span → Span
  /-- Where a fault is found after the change. -/
  position : Nat → Nat
  span_join : ∀ a b, span (a.join b) = (span a).join (span b)
  /-- The items in front, in reverse. -/
  before : List Node

/-- Both kinds of results changed. -/
def mapBoth {ε ε' α β : Type} (g : ε → ε') (h : α → β) : Except ε α → Except ε' β
  | .error e => .error (g e)
  | .ok a => .ok (h a)

theorem mapBoth_bind {ε ε' α β γ δ : Type} {g : ε → ε'} {h : α → β} {k : γ → δ}
    (x : Except ε α) {next : α → Except ε γ} {next' : β → Except ε' δ}
    (hnext : ∀ a, mapBoth g k (next a) = next' (h a)) :
    mapBoth g k (x >>= next) = mapBoth g h x >>= next' := by
  cases x with
  | error e => rfl
  | ok a => exact hnext a

namespace Relocation

variable (f : Relocation)

def token (t : Token) : Token :=
  ⟨t.lexeme, f.span t.span⟩

def error : ParseError → ParseError
  | .lexical e => .lexical ⟨f.position e.position, e.fault⟩
  | .grammar s expected found => .grammar (f.span s) expected found
  | .arity s keyword expected found => .arity (f.span s) keyword expected found
  | .type s keyword index expected found => .type (f.span s) keyword index expected found

def fault (e : LexicalError) : LexicalError :=
  ⟨f.position e.position, e.fault⟩

/-- An operand with its span. -/
def placed : Operand × Span → Operand × Span :=
  Prod.map id f.span

def invocation (call : Invocation) : Invocation :=
  call.mapSpan f.span

def node (n : Node) : Node :=
  n.mapSpans f.span

/-- The whole stream: the items in front come first, and it lies where all of them lie. -/
def root (n : Node) : Node :=
  .ofChildren .content (f.before.reverse ++ n.children.map f.node)

/-- Joining the spans of a run of parts, of which there is at least one. -/
theorem span_ofRun {spans : List Span} (hne : spans ≠ []) :
    f.span (Span.ofRun spans) = Span.ofRun (spans.map f.span) := by
  match spans, hne with
  | first :: rest, _ =>
    show f.span (first.join (rest.getLastD first)) =
      (f.span first).join ((rest.map f.span).getLastD (f.span first))
    rw [f.span_join]
    congr 1
    rcases List.eq_nil_or_concat rest with rfl | ⟨rest, last, rfl⟩
    · rfl
    · simp

theorem node_ofChildren (p : Production) {cs : List Node} (hne : cs ≠ []) :
    f.node (.ofChildren p cs) = .ofChildren p (cs.map f.node) := by
  show Node.group p (Node.mapSpansAll f.span cs) (f.span (Span.ofRun (cs.map Node.span))) =
    .group p (cs.map f.node) (Span.ofRun ((cs.map f.node).map Node.span))
  have hspans : (cs.map f.node).map Node.span = (cs.map Node.span).map f.span := by
    rw [List.map_map, List.map_map]
    exact List.map_congr_left fun c _ => Node.span_mapSpans f.span c
  rw [hspans, ← f.span_ofRun (by simpa using hne), Node.mapSpansAll_eq_map]
  rfl

theorem map_node_invocations (calls : List Invocation) :
    (calls.map .invocation).map f.node = (calls.map f.invocation).map .invocation := by
  rw [List.map_map, List.map_map]
  rfl

/-! ## Operands -/

def hole : Hole → Hole
  | .item opened before => .item (f.span opened) before
  | .value opened before key => .value (f.span opened) before key

def openDict (d : OpenDict) : OpenDict :=
  ⟨f.span d.opened, d.entries⟩

def reader (r : OperandReader) : OperandReader :=
  ⟨r.done.map f.placed, r.holes.map f.hole, r.dict.map f.openDict⟩

def operandRun : OperandRun → OperandRun
  | .complete operands => .complete (operands.map f.placed)
  | .unfinished reader => .unfinished (f.reader reader)
  | .refused e left => .refused (f.error e) (left.map f.token)

@[simp] theorem depth_reader (r : OperandReader) : (f.reader r).depth = r.depth := by
  simp [OperandReader.depth, reader]

@[simp] theorem isIdle_reader (r : OperandReader) : (f.reader r).isIdle = r.isIdle := by
  simp [OperandReader.isIdle, reader]

theorem deliver_reader (r : OperandReader) (x : Operand) (span : Span) :
    (f.reader r).deliver x (f.span span) = f.reader (r.deliver x span) := by
  obtain ⟨done, holes, dict⟩ := r
  match holes with
  | [] => rfl
  | .item opened before :: outer => rfl
  | .value opened before key :: outer => rfl

theorem refuse_reader (r : OperandReader) (t : Token) :
    (f.reader r).refuse (f.token t) = Prod.map f.error id (r.refuse t) := by
  obtain ⟨done, holes, dict⟩ := r
  match dict, holes with
  | some d, holes => rfl
  | none, [] => rfl
  | none, .item opened before :: outer => rfl
  | none, .value opened before key :: outer => rfl

theorem enter_guard (g : NestingGuard) (span : Span) :
    g.enter (f.span span) = mapBoth f.error id (g.enter span) := by
  unfold NestingGuard.enter
  split
  · rfl
  · rfl

theorem enter_reader (limit : Nat) (r : OperandReader) (t : Token) (opened : OperandReader) :
    (f.reader r).enter limit (f.token t) (f.reader opened) =
      mapBoth (Prod.map f.error id) f.reader (r.enter limit t opened) := by
  simp only [OperandReader.enter, depth_reader, token, enter_guard]
  cases NestingGuard.enter _ t.span <;> rfl

theorem step_reader (limit : Nat) (r : OperandReader) (t : Token) :
    (f.reader r).step limit (f.token t) =
      mapBoth (Prod.map f.error id) f.reader (r.step limit t) := by
  obtain ⟨lexeme, span⟩ := t
  obtain ⟨done, holes, dict⟩ := r
  cases dict with
  | some d =>
    cases lexeme with
    | dictClose =>
      show Except.ok ((f.reader ⟨done, holes, some d⟩).deliver (.dictionary d.entries.reverse)
        ((f.span d.opened).join (f.span span))) = _
      rw [← f.span_join, deliver_reader]
      rfl
    | name key => rfl
    | _ => exact congrArg Except.error (f.refuse_reader ⟨done, holes, some d⟩ _)
  | none =>
    cases lexeme with
    | arrayOpen =>
      exact f.enter_reader limit ⟨done, holes, none⟩ ⟨.arrayOpen, span⟩
        ⟨done, .item span [] :: holes, none⟩
    | dictOpen =>
      exact f.enter_reader limit ⟨done, holes, none⟩ ⟨.dictOpen, span⟩
        ⟨done, holes, some ⟨span, []⟩⟩
    | arrayClose =>
      match holes with
      | [] => rfl
      | .value opened before key :: outer => rfl
      | .item opened before :: outer =>
        show Except.ok ((f.reader ⟨done, outer, none⟩).deliver (.array before.reverse)
          ((f.span opened).join (f.span span))) = _
        rw [← f.span_join, deliver_reader]
        rfl
    | dictClose => exact congrArg Except.error (f.refuse_reader ⟨done, holes, none⟩ _)
    | operator keyword => exact congrArg Except.error (f.refuse_reader ⟨done, holes, none⟩ _)
    | eof => exact congrArg Except.error (f.refuse_reader ⟨done, holes, none⟩ _)
    -- the others are operands by themselves
    | _ => exact congrArg Except.ok (f.deliver_reader ⟨done, holes, none⟩ _ _)

theorem run_reader (limit : Nat) (r : OperandReader) (ts : List Token) :
    (f.reader r).run limit (ts.map f.token) = f.operandRun (r.run limit ts) := by
  induction ts generalizing r with
  | nil =>
    simp only [List.map_nil, OperandReader.run, isIdle_reader]
    split
    · simp [operandRun, reader]
    · rfl
  | cons t ts ih =>
    simp only [List.map_cons, OperandReader.run, step_reader]
    cases r.step limit t with
    | ok r' => exact ih r'
    | error failure =>
      obtain ⟨e, used⟩ := failure
      cases used <;> rfl

/-! ## Phrases -/

def phrase (p : Phrase) : Phrase :=
  ⟨p.pending.map f.token, p.keyword, f.span p.place⟩

def failure (e : Failure) : Failure :=
  ⟨f.error e.error, e.left.map (List.map f.token)⟩

theorem operands_phrase (limit : Nat) (p : Phrase) :
    (f.phrase p).operands limit = mapBoth f.failure (List.map f.placed) (p.operands limit) := by
  have hrun : OperandReader.start.run limit (p.pending.map f.token) =
      f.operandRun (OperandReader.start.run limit p.pending) :=
    f.run_reader limit OperandReader.start p.pending
  show Phrase.operands limit ⟨p.pending.map f.token, p.keyword, f.span p.place⟩ = _
  simp only [Phrase.operands, hrun]
  match OperandReader.start.run limit p.pending with
  | .complete operands => rfl
  | .refused e left => rfl
  | .unfinished r =>
    have hrefuse := f.refuse_reader r p.token
    have htoken : Phrase.token ⟨p.pending.map f.token, p.keyword, f.span p.place⟩ =
        f.token p.token := rfl
    simp only [operandRun, htoken, hrefuse]
    cases hused : (r.refuse p.token).2 <;> simp [mapBoth, failure, hused]

theorem check_placed (op : Operator) (xs : List Operand) (spans : List Span) (place : Span) :
    op.check xs (spans.map f.span) (f.span place) =
      mapBoth f.error id (op.check xs spans place) := by
  simp only [Operator.check]
  split
  · match Operator.firstMismatch? op.arity xs.length 0 xs with
    | none => rfl
    | some (index, demand, x) =>
      simp only [List.getElem?_map]
      cases spans[index]? <;> rfl
  · cases spans with
    | nil => rfl
    | cons s spans =>
      show Except.error (ParseError.arity ((f.span s).join (f.span place)) _ _ _) = _
      rw [← f.span_join]
      rfl

theorem invoke_phrase (p : Phrase) (production : Production) (category : Option Category)
    (xs : List (Operand × Span)) :
    (f.phrase p).invoke production category (xs.map f.placed) =
      f.invocation (p.invoke production category xs) := by
  cases xs with
  | nil => rfl
  | cons x xs =>
    simp [Phrase.invoke, phrase, placed, invocation, Invocation.mapSpan, f.span_join,
      Function.comp_def]

theorem invocation_phrase (limit : Nat) (production : Production) (p : Phrase) :
    (f.phrase p).invocation limit production =
      mapBoth f.failure f.invocation (p.invocation limit production) := by
  simp only [Phrase.invocation, operands_phrase]
  cases p.operands limit with
  | error e => rfl
  | ok xs =>
    have hfst : (xs.map f.placed).map (·.1) = xs.map (·.1) := by
      simp [placed, Function.comp_def]
    have hsnd : (xs.map f.placed).map (·.2) = (xs.map (·.2)).map f.span := by
      simp [placed, Function.comp_def]
    have hoperator : (f.phrase p).operator? = p.operator? := rfl
    have hplace : (f.phrase p).place = f.span p.place := rfl
    simp only [mapBoth, hoperator, hplace, hfst, hsnd, check_placed]
    cases p.operator?.filter (·.production = production) with
    | none => rfl
    | some op =>
      dsimp only
      cases op.check (xs.map (·.1)) (xs.map (·.2)) p.place with
      | error e => rfl
      | ok _ => exact congrArg Except.ok (f.invoke_phrase p production (some op.category) xs)

theorem undefinedInvocation_phrase (limit : Nat) (p : Phrase) :
    (f.phrase p).undefinedInvocation limit =
      mapBoth f.failure f.invocation (p.undefinedInvocation limit) := by
  simp only [Phrase.undefinedInvocation, operands_phrase]
  cases p.operands limit with
  | error e => rfl
  | ok xs => exact congrArg Except.ok (f.invoke_phrase p .unknownOperator none xs)

/-! ## States of the recogniser -/

def frame (fr : Frame) : Frame :=
  match fr.enclosure with
  | .stream => ⟨.stream, fr.nodes.map f.node ++ f.before⟩
  | .within s => ⟨.within s, fr.nodes.map f.node⟩

def part : Part → Part
  | .path drawn clip => .path (drawn.map f.invocation) (clip.map f.invocation)
  | .imageData begin => .imageData (f.invocation begin)
  | .imageEnd begin data => .imageEnd (f.invocation begin) (f.invocation data)
  | .opening s => .opening s
  | .single p => .single p
  | .undefined => .undefined
  | .image => .image

def state : RecognizerState → RecognizerState
  | .between top outer => .between (f.frame top) (outer.map f.frame)
  | .within p outer => .within (f.part p) (outer.map f.frame)

def progress : Progress → Progress
  | .more s => .more (f.state s)
  | .done n => .done (f.node n)

@[simp] theorem enclosure_frame (fr : Frame) : (f.frame fr).enclosure = fr.enclosure := by
  obtain ⟨enclosure, nodes⟩ := fr
  cases enclosure <;> rfl

theorem push_frame (fr : Frame) (n : Node) :
    (f.frame fr).push (f.node n) = f.frame (fr.push n) := by
  obtain ⟨enclosure, nodes⟩ := fr
  cases enclosure <;> rfl

@[simp] theorem level_frames (frames : List Frame) :
    Frame.level (frames.map f.frame) = Frame.level frames := by
  induction frames with
  | nil => rfl
  | cons fr frames ih => simp only [List.map_cons, Frame.level, enclosure_frame, ih]

@[simp] theorem inCompatibility_frames (frames : List Frame) :
    Frame.inCompatibility (frames.map f.frame) = Frame.inCompatibility frames := by
  simp [Frame.inCompatibility, List.any_map, Function.comp_def]

@[simp] theorem depth_frames (frames : List Frame) :
    Frame.depth (frames.map f.frame) = Frame.depth frames := by
  simp [Frame.depth, List.countP_map, Function.comp_def]

@[simp] theorem expected_part (p : Part) : (f.part p).expected = p.expected := by
  match p with
  | .path [] clip => rfl
  | .path (call :: drawn) clip => rfl
  | .opening s => rfl
  | .single p => rfl
  | .undefined => rfl
  | .image => rfl
  | .imageData begin => rfl
  | .imageEnd begin data => rfl

@[simp] theorem isCommitted_part (p : Part) : (f.part p).isCommitted = p.isCommitted := by
  cases p <;> rfl

/-! ## Steps -/

section

open Recognizer

theorem deliver_node (n : Node) (frames : List Frame) :
    deliver (f.node n) (frames.map f.frame) = f.progress (deliver n frames) := by
  cases frames with
  | nil => rfl
  | cons fr frames =>
    show Progress.more (.between ((f.frame fr).push (f.node n)) (frames.map f.frame)) = _
    rw [push_frame]
    rfl

theorem pathNode_invocations {drawn : List Invocation} (hne : drawn ≠ [])
    (clip : Option Invocation) (paint : Invocation) :
    pathNode (drawn.map f.invocation) (clip.map f.invocation) (f.invocation paint) =
      f.node (pathNode drawn clip paint) := by
  have hconstruction : f.node (.ofChildren .pathConstruction (drawn.reverse.map .invocation)) =
      .ofChildren .pathConstruction ((drawn.map f.invocation).reverse.map .invocation) := by
    rw [f.node_ofChildren _ (by simpa using hne), map_node_invocations, List.map_reverse]
  unfold pathNode
  rw [f.node_ofChildren _ (by simp), List.map_cons, map_node_invocations, hconstruction]
  cases clip <;> rfl

/-- An invocation that something is done with. -/
theorem invocation_bind (limit : Nat) (p : Production) (ph : Phrase)
    {next next' : Invocation → Except Failure Progress}
    (h : ∀ call, next' (f.invocation call) = mapBoth f.failure f.progress (next call)) :
    ((f.phrase ph).invocation limit p >>= next') =
      mapBoth f.failure f.progress (ph.invocation limit p >>= next) := by
  rw [invocation_phrase]
  exact (mapBoth_bind _ fun call => (h call).symm).symm

theorem openSection_frames (limit : Nat) (s : Section) (call : Invocation)
    (outer : List Frame) :
    openSection limit s (f.invocation call) (outer.map f.frame) =
      mapBoth f.failure f.progress (openSection limit s call outer) := by
  have hspan : (f.invocation call).span = f.span call.span := rfl
  simp only [openSection, depth_frames, hspan, enter_guard]
  cases NestingGuard.enter _ call.span <;> rfl

theorem stepPath_frames (limit : Nat) (ph : Phrase) (outer : List Frame)
    (drawn : List Invocation) (clip : Option Invocation) :
    stepPath limit (f.phrase ph) (outer.map f.frame) (drawn.map f.invocation)
        (clip.map f.invocation) =
      mapBoth f.failure f.progress (stepPath limit ph outer drawn clip) := by
  have hrefused : (f.phrase ph).refused
      (Part.path (drawn.map f.invocation) (clip.map f.invocation)).expected =
      f.failure (ph.refused (Part.path drawn clip).expected) :=
    congrArg (f.phrase ph).refused (f.expected_part (.path drawn clip))
  have hclip : clip.map f.invocation = none ↔ clip = none := Option.map_eq_none_iff
  have hdrawn : drawn.map f.invocation = [] ↔ drawn = [] := List.map_eq_nil_iff
  have hoperator : (f.phrase ph).operator? = ph.operator? := rfl
  simp only [stepPath, hrefused, hclip, hdrawn, hoperator]
  cases ph.operator? with
  | none => rfl
  | some op =>
    dsimp only
    by_cases hdraw : op.category = .pathConstruction ∧ clip = none
    · rw [if_pos hdraw, if_pos hdraw]
      exact f.invocation_bind limit op.production ph fun call => rfl
    rw [if_neg hdraw, if_neg hdraw]
    by_cases hne : drawn = []
    · rw [if_pos hne, if_pos hne]
      rfl
    rw [if_neg hne, if_neg hne]
    by_cases hclipping : op.production = .clipping ∧ clip = none
    · rw [if_pos hclipping, if_pos hclipping]
      exact f.invocation_bind limit op.production ph fun call => rfl
    rw [if_neg hclipping, if_neg hclipping]
    by_cases hpaint : op.production = .pathPainting ∨ op.production = .endPath
    · rw [if_pos hpaint, if_pos hpaint]
      apply f.invocation_bind limit op.production ph
      intro call
      rw [f.pathNode_invocations hne, deliver_node]
      rfl
    · rw [if_neg hpaint, if_neg hpaint]
      rfl

theorem stepPart_frames (limit : Nat) (ph : Phrase) (outer : List Frame) (p : Part) :
    stepPart limit (f.phrase ph) (outer.map f.frame) (f.part p) =
      mapBoth f.failure f.progress (stepPart limit ph outer p) := by
  cases p with
  | opening s =>
    apply f.invocation_bind limit s.opening ph
    intro call
    exact f.openSection_frames limit s call outer
  | single p =>
    apply f.invocation_bind limit p ph
    intro call
    exact congrArg Except.ok (f.deliver_node (.invocation call) outer)
  | undefined =>
    show ((f.phrase ph).undefinedInvocation limit >>= _) = mapBoth _ _
      (ph.undefinedInvocation limit >>= _)
    rw [undefinedInvocation_phrase]
    refine (mapBoth_bind _ ?_).symm
    intro call
    exact congrArg Except.ok (f.deliver_node (.invocation call) outer).symm
  | path drawn clip => exact f.stepPath_frames limit ph outer drawn clip
  | image => exact f.invocation_bind limit .beginInlineImage ph fun call => rfl
  | imageData begin => exact f.invocation_bind limit .inlineImageData ph fun call => rfl
  | imageEnd begin data =>
    apply f.invocation_bind limit .endInlineImage ph
    intro call
    have hne : [begin, data, call].map Node.invocation ≠ [] := List.cons_ne_nil _ _
    have hdeliver := f.deliver_node (.ofChildren .inlineImage ([begin, data, call].map .invocation))
      outer
    rw [f.node_ofChildren .inlineImage hne, map_node_invocations] at hdeliver
    exact congrArg Except.ok hdeliver

end

end Relocation

/-! ## Glyph descriptions -/

/-- The operator of the phrase begins a glyph description. -/
def Phrase.DescribesGlyph (ph : Phrase) : Prop :=
  ∃ op, ph.operator? = some op ∧ op.category = .type3Font

/-- Only operators of glyph descriptions look at what was before them. -/
theorem Operator.role_of_category {op : Operator} (h : op.category ≠ .type3Font) (level : Level)
    (glyph glyph' : Bool) : op.role level glyph = op.role level glyph' := by
  unfold Operator.role
  cases hc : op.category <;> cases level <;> first | rfl | exact absurd hc h

namespace Relocation

open Recognizer

variable (f : Relocation)

theorem isFresh_frame (fr : Frame) :
    (f.frame fr).isFresh = (fr.isFresh && f.before.isEmpty) := by
  obtain ⟨enclosure, nodes⟩ := fr
  cases enclosure with
  | within s => rfl
  | stream => cases nodes <;> rfl

theorem stepItem_frames (o : Options) (ph : Phrase) (top : Frame) (outer : List Frame)
    (h : f.before = [] ∨ top.isFresh = false ∨ ¬ ph.DescribesGlyph) :
    stepItem o (f.phrase ph) (f.frame top) (outer.map f.frame) =
      mapBoth f.failure f.progress (stepItem o ph top outer) := by
  have hoperator : (f.phrase ph).operator? = ph.operator? := rfl
  have hrole : ∀ op, ph.operator? = some op → ∀ level,
      op.role level (f.frame top).isFresh = op.role level top.isFresh := by
    intro op hop level
    rw [isFresh_frame]
    rcases h with hbefore | hfresh | hglyph
    · rw [hbefore, List.isEmpty_nil, Bool.and_true]
    · rw [hfresh, Bool.false_and]
    · exact Operator.role_of_category (fun hc => hglyph ⟨op, hop, hc⟩) level _ _
  have hframes : f.frame top :: outer.map f.frame = (top :: outer).map f.frame := rfl
  simp only [stepItem, hframes, level_frames, inCompatibility_frames, hoperator]
  cases hop : ph.operator? with
  | none =>
    dsimp only
    split
    · exact f.stepPart_frames o.maxNesting ph (top :: outer) .undefined
    · rfl
  | some op =>
    dsimp only
    rw [hrole op hop]
    cases hpart : op.role (Frame.level (top :: outer)) top.isFresh with
    | begins p =>
      -- a part that has just begun has no places
      have hsame : f.part p = p := by
        cases Operator.mayBegin_of_role hpart <;> rfl
      have hstep := f.stepPart_frames o.maxNesting ph (top :: outer) p
      rw [hsame] at hstep
      exact hstep
    | needsPath => rfl
    | outOfPlace => rfl

theorem node_frame (s : Section) {nodes : List Node} (hne : nodes ≠ []) :
    (f.frame ⟨.within s, nodes⟩).node = f.node (Frame.node ⟨.within s, nodes⟩) := by
  show Node.ofChildren s.production (nodes.map f.node).reverse =
    f.node (.ofChildren s.production nodes.reverse)
  rw [f.node_ofChildren _ (by simpa using hne), List.map_reverse]

/-- **Steps**: a relocated phrase in a relocated state leads to the relocated state. -/
theorem step_state (o : Options) (ph : Phrase) (state : RecognizerState)
    (h : f.before = [] ∨ state.isFresh = false ∨ ¬ ph.DescribesGlyph) :
    step o (f.phrase ph) (f.state state) =
      mapBoth f.failure f.progress (step o ph state) := by
  cases state with
  | within p outer => exact f.stepPart_frames o.maxNesting ph outer p
  | between top outer =>
    have hitem := f.stepItem_frames o ph top outer h
    obtain ⟨enclosure, nodes⟩ := top
    cases enclosure with
    | stream => exact hitem
    | within s =>
      have hcloses : closes (f.phrase ph) (.within s) = closes ph (.within s) := rfl
      show (if closes (f.phrase ph) (.within s) then _ else _) =
        mapBoth f.failure f.progress (if closes ph (.within s) then _ else _)
      rw [hcloses]
      split
      · apply f.invocation_bind o.maxNesting s.closing ph
        intro call
        have hnode := f.node_frame s (List.cons_ne_nil (.invocation call) nodes)
        have hdeliver := f.deliver_node (Frame.node ⟨.within s, .invocation call :: nodes⟩) outer
        rw [← hnode] at hdeliver
        exact congrArg Except.ok hdeliver
      · exact hitem

/-! ## Ends -/

theorem finishFrames_frames (o : Options) (pending : List Token) (eof : Token) {top : Frame}
    {outer : List Frame} (h : Grounded (top :: outer)) :
    finishFrames o (pending.map f.token) (f.token eof) (f.frame top) (outer.map f.frame) =
      mapBoth (Prod.map f.error (List.map f.token)) f.root
        (finishFrames o pending eof top outer) := by
  -- by induction on the open sections; a state block at the end goes to the frame around it
  induction outer generalizing top with
  | nil =>
    cases h with
    | within hne h => cases h
    | stream nodes =>
      rw [finishFrames.eq_def, finishFrames.eq_def]
      cases pending with
      | cons t pending =>
        show Except.error (ParseError.grammar ((f.span t.span).join (f.span eof.span)) _ _, _) = _
        rw [← f.span_join]
        rfl
      | nil =>
        show Except.ok (Node.ofChildren .content (nodes.map f.node ++ f.before).reverse) =
          .ok (.ofChildren .content (f.before.reverse ++ nodes.reverse.map f.node))
        rw [List.reverse_append, List.map_reverse]
  | cons fr outer ih =>
    cases h with
    | @within s nodes _ hne h =>
      rw [finishFrames.eq_def, finishFrames.eq_def]
      cases pending with
      | cons t pending =>
        show Except.error (ParseError.grammar ((f.span t.span).join (f.span eof.span)) _ _, _) = _
        rw [← f.span_join]
        rfl
      | nil =>
        show (if s = .stateBlock ∧ o.unclosedStates = true then _ else _) = mapBoth _ _
          (if s = .stateBlock ∧ o.unclosedStates = true then _ else _)
        split
        · have hpushed : (f.frame fr).push (f.frame ⟨.within s, nodes⟩).node =
              f.frame (fr.push (Frame.node ⟨.within s, nodes⟩)) := by
            rw [f.node_frame s hne, f.push_frame]
          show finishFrames o ([].map f.token) (f.token eof)
            ((f.frame fr).push (f.frame ⟨.within s, nodes⟩).node) (outer.map f.frame) = _
          rw [hpushed]
          exact ih (grounded_push h _)
        · rfl

theorem finish_state (o : Options) (pending : List Token) (eof : Token)
    {state : RecognizerState} (h : Grounded state.frames) :
    finish o (pending.map f.token) (f.token eof) (f.state state) =
      mapBoth (Prod.map f.error (List.map f.token)) f.root (finish o pending eof state) := by
  cases state with
  | between top outer => exact f.finishFrames_frames o pending eof h
  | within p outer =>
    have hrun : readPending o.maxNesting (pending.map f.token) =
        f.operandRun (readPending o.maxNesting pending) :=
      f.run_reader o.maxNesting OperandReader.start pending
    simp only [finish, state, isCommitted_part, expected_part, hrun]
    cases p.isCommitted with
    | false => rfl
    | true =>
      cases readPending o.maxNesting pending with
      | complete xs => rfl
      | refused e left => rfl
      | unfinished r =>
        show Except.error (((f.reader r).refuse (f.token eof)).1, _) = _
        rw [f.refuse_reader]
        rfl

theorem meetFault_state (limit : Nat) (pending : List Token) (e : LexicalError)
    (state : RecognizerState) :
    meetFault limit (pending.map f.token) (f.fault e) (f.state state) =
      Prod.map f.error (Option.map (List.map f.token)) (meetFault limit pending e state) := by
  cases state with
  | between top outer => rfl
  | within p outer =>
    have hrun : readPending limit (pending.map f.token) =
        f.operandRun (readPending limit pending) :=
      f.run_reader limit OperandReader.start pending
    simp only [meetFault, Relocation.state, isCommitted_part, hrun]
    cases p.isCommitted with
    | false => rfl
    | true => cases readPending limit pending <;> rfl

theorem keptTokens_state (pending : List Token) (state : RecognizerState) :
    keptTokens (pending.map f.token) (f.state state) =
      (keptTokens pending state).map f.token := by
  cases state with
  | between top outer => rfl
  | within p outer =>
    simp only [keptTokens, Relocation.state, isCommitted_part]
    cases p.isCommitted <;> rfl

/-! ## Runs -/

def feed : Feed → Feed
  | .phrase p rest => .phrase (f.phrase p) (feed rest)
  | .fault pending e rest => .fault (pending.map f.token) (f.fault e) (feed rest)
  | .finish pending eof => .finish (pending.map f.token) (f.token eof)
  | .stuck pending e => .stuck (pending.map f.token) (f.fault e)

theorem prepend_feed (ts : List Token) (feed : Feed) :
    (f.feed feed).prepend (ts.map f.token) = f.feed (feed.prepend ts) := by
  cases feed <;> simp [Relocation.feed, Feed.prepend, phrase]

theorem feed_cons (t : Token) (feed : Feed) :
    f.feed (feed.cons t) = (f.feed feed).cons (f.token t) := by
  obtain ⟨lexeme, span⟩ := t
  cases lexeme with
  | operator keyword => rfl
  -- other tokens wait for an operator
  | _ => exact (f.prepend_feed [_] feed).symm

theorem feed_ofTokens (ts : List Token) (feed : Feed) :
    f.feed (Feed.ofTokens ts feed) = Feed.ofTokens (ts.map f.token) (f.feed feed) := by
  induction ts with
  | nil => rfl
  | cons t ts ih =>
    show f.feed ((Feed.ofTokens ts feed).cons t) =
      (Feed.ofTokens (ts.map f.token) (f.feed feed)).cons (f.token t)
    rw [feed_cons, ih]

theorem leave_feed (p : Phrase) (left : Option (List Token)) (rest : Feed) :
    (f.phrase p).leave (left.map (List.map f.token)) (f.feed rest) = f.feed (p.leave left rest) := by
  cases left <;> rfl

/-- **Runs**: the answer to a relocated stream is the relocated answer. A glyph
    description must not come first in a stream that has items in front. -/
theorem run_state (o : Options) {state : RecognizerState} (hgrounded : Grounded state.frames)
    (feed : Feed) (h : f.before = [] ∨ state.isFresh = false ∨
      ∀ ph rest, feed = .phrase ph rest → ¬ ph.DescribesGlyph) :
    run o (f.state state) (f.feed feed) =
      mapBoth (Prod.map f.error f.feed) (Prod.map f.root f.feed) (run o state feed) := by
  -- by induction on the feed; after the first step the stream is not fresh
  induction feed generalizing state with
  | phrase ph rest ih =>
    have hstep := f.step_state o ph state (h.imp_right (Or.imp_right fun h => h ph rest rfl))
    show run o (f.state state) (.phrase (f.phrase ph) (f.feed rest)) = _
    rw [run, run, hstep]
    cases hph : step o ph state with
    | error e =>
      show Except.error (f.error e.error, (f.phrase ph).leave (e.left.map (List.map f.token))
        (f.feed rest)) = _
      rw [leave_feed]
      rfl
    | ok pr =>
      cases settled_of_step hgrounded hph with
      | more hdecided hgrounded' hfresh => exact ih hgrounded' (.inr (.inl hfresh))
  | fault pending e rest ih =>
    show run o (f.state state) (.fault (pending.map f.token) (f.fault e) (f.feed rest)) = _
    rw [run, run, meetFault_state]
    obtain ⟨e', left⟩ := meetFault o.maxNesting pending e state
    cases left with
    | some left => rfl
    | none =>
      show Except.error (f.error e', (f.feed rest).prepend
        (keptTokens (pending.map f.token) (f.state state))) = _
      rw [keptTokens_state, prepend_feed]
      rfl
  | finish pending eof =>
    show run o (f.state state) (.finish (pending.map f.token) (f.token eof)) = _
    rw [run, run, f.finish_state o pending eof hgrounded]
    cases finish o pending eof state with
    | ok n => rfl
    | error e => rfl
  | stuck pending e =>
    show run o (f.state state) (.stuck (pending.map f.token) (f.fault e)) = _
    rw [run, run, meetFault_state]
    obtain ⟨e', left⟩ := meetFault o.maxNesting pending e state
    cases left with
    | some left => rfl
    | none =>
      show Except.error (f.error e', Feed.stuck (keptTokens (pending.map f.token) (f.state state))
        (f.fault e)) = _
      rw [keptTokens_state]
      rfl

end Relocation

end PageContent
