import PageContent.Proofs.Prefixes
import PageContent.Proofs.Filtering

/-! # Where invocations come from

    Every invocation of a tree has been made of one phrase of the stream.

    * **Making**: a phrase is made into an invocation of a production that its
      operator has, or into an undefined one if the catalog does not have the operator.
    * **One step** keeps the invocations that a state has, and adds at most the one
      that is made of the phrase.
    * **Runs**: what a run gives was in its first state or is made of a phrase of the
      feed. A production that is asked for by itself is read the same way, apart from
      the undefined operator: it is taken without a look at the catalog.
    * **The catalog** has the production and the category of an invocation that has been
      made of a phrase, and accepts its operands.
-/

namespace PageContent

/-! ## Making -/

/-- An invocation that a phrase is made into. -/
inductive Phrase.Makes (limit : Nat) (ph : Phrase) (call : Invocation) : Prop where
  | known {p : Production} (h : ph.invocation limit p = .ok call)
  | outside (hop : ph.operator? = none) (h : ph.undefinedInvocation limit = .ok call)

/-- The phrases of a feed, those after a fault included. -/
def Feed.phrases : Feed → List Phrase
  | .phrase ph rest => ph :: rest.phrases
  | .fault _ _ rest => rest.phrases
  | .finish _ _ => []
  | .stuck _ _ => []

namespace Node

theorem mem_leavesAll {call : Invocation} {cs : List Node} :
    call ∈ leavesAll cs ↔ ∃ c ∈ cs, call ∈ c.leaves := by
  induction cs with
  | nil => simp [leavesAll]
  | cons c cs ih => simp [leavesAll, ih]

theorem mem_leavesAll_reverse {call : Invocation} {cs : List Node} :
    call ∈ leavesAll cs.reverse ↔ call ∈ leavesAll cs := by
  simp [mem_leavesAll]

end Node

/-! ## The invocations of a state -/

/-- The invocations that a part has. -/
def Part.calls : Part → List Invocation
  | path drawn clip => drawn ++ clip.toList
  | imageData begin => [begin]
  | imageEnd begin data => [begin, data]
  | _ => []

/-- The invocations that frames have. -/
def Frame.calls (frames : List Frame) : List Invocation :=
  frames.flatMap fun f => Node.leavesAll f.nodes

def RecognizerState.calls : RecognizerState → List Invocation
  | between top outer => Frame.calls (top :: outer)
  | within part outer => part.calls ++ Frame.calls outer

def Progress.calls : Progress → List Invocation
  | more state => state.calls
  | done n => n.leaves

theorem Frame.mem_calls_cons {call : Invocation} {f : Frame} {outer : List Frame} :
    call ∈ Frame.calls (f :: outer) ↔
      call ∈ Node.leavesAll f.nodes ∨ call ∈ Frame.calls outer := by
  simp [Frame.calls]

/-- What is put in a frame adds its invocations to those of the frame. -/
theorem Frame.mem_calls_push {call : Invocation} {f : Frame} {n : Node} {outer : List Frame} :
    call ∈ Frame.calls (f.push n :: outer) ↔
      call ∈ n.leaves ∨ call ∈ Frame.calls (f :: outer) := by
  simp [Frame.mem_calls_cons, Frame.push, Node.leavesAll, or_assoc]

theorem Frame.mem_leaves_node {call : Invocation} {f : Frame} :
    call ∈ f.node.leaves ↔ call ∈ Node.leavesAll f.nodes := by
  obtain ⟨enclosure, nodes⟩ := f
  cases enclosure <;> exact Node.mem_leavesAll_reverse

namespace Recognizer

variable {o : Options} {ph : Phrase} {outer : List Frame} {call : Invocation}

theorem mem_calls_deliver {n : Node} :
    call ∈ (deliver n outer).calls ↔ call ∈ n.leaves ∨ call ∈ Frame.calls outer := by
  cases outer with
  | nil => simp [deliver, Progress.calls, Frame.calls]
  | cons f outer => exact Frame.mem_calls_push

theorem mem_leaves_pathNode {drawn : List Invocation} {clip : Option Invocation}
    {paint : Invocation} :
    call ∈ (Grammar.pathNode drawn clip paint).leaves ↔
      call ∈ drawn ∨ call ∈ clip.toList ∨ call = paint := by
  simp only [Grammar.pathNode, Node.leaves_ofChildren, Node.leavesAll,
    Node.leavesAll_invocations]
  simp

/-! ## One step -/

/-- A step in a part makes one invocation of the phrase, and has no others but those
    that there have been before. -/
theorem exists_makes_of_stepPart {part : Part} {pr : Progress}
    (hundefined : part = .undefined → ph.operator? = none)
    (h : stepPart o.maxNesting ph outer part = .ok pr) :
    ∃ made, ph.Makes o.maxNesting made ∧ ∀ call ∈ pr.calls,
      call = made ∨ call ∈ part.calls ∨ call ∈ Frame.calls outer := by
  cases part with
  | path drawn clip =>
    -- a path goes on, is clipped, or is complete
    obtain ⟨op, -, made, hmade, ⟨-, rfl, rfl⟩ | ⟨-, -, rfl, rfl⟩ | ⟨-, -, rfl⟩⟩ :=
      stepPath_eq_ok_iff.mp h
    · refine ⟨made, .known hmade, fun call hcall => ?_⟩
      simpa [Progress.calls, RecognizerState.calls, Part.calls, or_assoc] using hcall
    · refine ⟨made, .known hmade, fun call hcall => ?_⟩
      simpa [Progress.calls, RecognizerState.calls, Part.calls, or_left_comm, or_assoc] using hcall
    · refine ⟨made, .known hmade, fun call hcall => ?_⟩
      rw [mem_calls_deliver, mem_leaves_pathNode, List.mem_reverse] at hcall
      simp only [Part.calls, List.mem_append]
      grind
  | opening s =>
    obtain ⟨made, hmade, hopen⟩ := bind_eq_ok_iff.mp h
    obtain ⟨-, rfl⟩ := openSection_eq_ok_iff.mp hopen
    refine ⟨made, .known hmade, fun call hcall => ?_⟩
    simpa [Progress.calls, RecognizerState.calls, Part.calls, Frame.calls, Node.leavesAll,
      Node.leaves] using hcall
  | single p =>
    obtain ⟨made, hmade, hpr⟩ := bind_eq_ok_iff.mp h
    obtain rfl := Except.ok.inj hpr
    refine ⟨made, .known hmade, fun call hcall => ?_⟩
    simpa [mem_calls_deliver, Node.leaves, Part.calls] using hcall
  | undefined =>
    obtain ⟨made, hmade, hpr⟩ := bind_eq_ok_iff.mp h
    obtain rfl := Except.ok.inj hpr
    refine ⟨made, .outside (hundefined rfl) hmade, fun call hcall => ?_⟩
    simpa [mem_calls_deliver, Node.leaves, Part.calls] using hcall
  | image =>
    obtain ⟨made, hmade, hpr⟩ := bind_eq_ok_iff.mp h
    obtain rfl := Except.ok.inj hpr
    refine ⟨made, .known hmade, fun call hcall => ?_⟩
    simpa [Progress.calls, RecognizerState.calls, Part.calls] using hcall
  | imageData begin =>
    obtain ⟨made, hmade, hpr⟩ := bind_eq_ok_iff.mp h
    obtain rfl := Except.ok.inj hpr
    refine ⟨made, .known hmade, fun call hcall => ?_⟩
    simpa [Progress.calls, RecognizerState.calls, Part.calls, or_left_comm] using hcall
  | imageEnd begin data =>
    obtain ⟨made, hmade, hpr⟩ := bind_eq_ok_iff.mp h
    obtain rfl := Except.ok.inj hpr
    refine ⟨made, .known hmade, fun call hcall => ?_⟩
    simp only [mem_calls_deliver, Node.leaves_ofChildren, Node.leavesAll_invocations] at hcall
    simp only [Part.calls]
    grind

/-- The part that begins an item has no invocation, and is an undefined operator only if
    the catalog does not have it. -/
theorem calls_of_begins {w : Grammar.Setting} {glyph : Bool} {part : Part}
    (h : Begins o w glyph ph part) :
    part.calls = [] ∧ (part = .undefined → ph.operator? = none) := by
  cases h with
  | undefined hop hw ho => exact ⟨rfl, fun _ => hop⟩
  | known hop hrole =>
    cases Operator.mayBegin_of_role hrole <;> exact ⟨rfl, fun hpart => absurd hpart (by simp)⟩

/-- **One step** adds at most one invocation to those of the state. -/
theorem exists_makes_of_step {state : RecognizerState} {pr : Progress} (hdecided : Decided state)
    (h : step o ph state = .ok pr) :
    ∃ made, ph.Makes o.maxNesting made ∧ ∀ call ∈ pr.calls, call = made ∨ call ∈ state.calls := by
  cases state with
  | within part outer =>
    obtain ⟨made, hmade, hcalls⟩ :=
      exists_makes_of_stepPart (fun hpart => absurd (by rw [hpart]) (hdecided outer)) h
    exact ⟨made, hmade, fun call hcall => (hcalls call hcall).imp_right List.mem_append.mpr⟩
  | between top outer =>
    rcases step_between_eq_ok_iff.mp h with hitem | ⟨s, made, htop, hmade, rfl⟩
    · obtain ⟨part, hbegins, hpart⟩ := stepItem_eq_ok_iff.mp hitem
      obtain ⟨hnil, hundefined⟩ := calls_of_begins hbegins
      obtain ⟨made, hmade, hcalls⟩ := exists_makes_of_stepPart hundefined hpart
      refine ⟨made, hmade, fun call hcall => (hcalls call hcall).imp_right fun h => ?_⟩
      rw [hnil] at h
      exact h.resolve_left List.not_mem_nil
    · -- the first section is closed
      refine ⟨made, .known hmade, fun call hcall => ?_⟩
      rw [mem_calls_deliver, Frame.mem_leaves_node, ← Frame.mem_calls_cons,
        Frame.mem_calls_push] at hcall
      exact hcall.imp_left List.mem_singleton.mp

theorem decided_of_step {state state' : RecognizerState}
    (h : step o ph state = .ok (.more state')) : Decided state' := by
  have hdecided : ∀ {outer : List Frame} {pr : Progress}, Leads outer pr →
      pr = .more state' → Decided state' := by
    intro outer pr hleads hpr
    cases hleads with
    | part hp => exact Progress.more.inj hpr ▸ decided_within hp _
    | opened s call => exact Progress.more.inj hpr ▸ decided_between _ _
    | item n =>
      cases outer with
      | nil => exact absurd hpr (by simp [deliver])
      | cons f outer => exact Progress.more.inj hpr ▸ decided_between _ _
  rcases leads_of_step h with
    ⟨part, outer, rfl, hleads⟩ | ⟨top, outer, rfl, hleads | ⟨s, n, -, heq⟩⟩
  · exact hdecided hleads rfl
  · exact hdecided hleads rfl
  · exact hdecided (@Leads.item outer n) heq.symm

/-! ## Runs -/

/-- The frames that are closed at the end of the stream have their invocations still. -/
theorem mem_calls_of_finishFrames {pending : List Token} {eof : Token} {top : Frame}
    {n : Node} (h : finishFrames o pending eof top outer = .ok n) (hcall : call ∈ n.leaves) :
    call ∈ Frame.calls (top :: outer) := by
  fun_induction finishFrames o pending eof top outer with
  | case1 => exact absurd h (by simp)
  | case2 top outer =>
    obtain rfl := Except.ok.inj h
    exact Frame.mem_calls_cons.mpr (.inl (Frame.mem_leaves_node.mp hcall))
  | case3 top =>
    obtain rfl := Except.ok.inj h
    exact Frame.mem_calls_cons.mpr (.inl (Frame.mem_leaves_node.mp hcall))
  | case4 top s _ hpending _ f outer ih =>
    -- the first frame has become a node of the second one
    subst hpending
    rw [Frame.mem_calls_cons, ← Frame.mem_leaves_node, ← Frame.mem_calls_push]
    exact ih h
  | case5 => exact absurd h (by simp)

/-- **Runs**: the invocations of what a run gives are those of its first state, and others
    that are made of the phrases of the feed. -/
theorem mem_calls_of_run {state : RecognizerState} {feed rest : Feed} {n : Node}
    (hdecided : Decided state) (h : run o state feed = .ok (n, rest)) (hcall : call ∈ n.leaves) :
    call ∈ state.calls ∨ ∃ ph ∈ feed.phrases, ph.Makes o.maxNesting call := by
  fun_induction run o state feed with
  | case1 state ph rest' state' hstep ih =>
    rcases ih (decided_of_step hstep) h with hcall | ⟨ph', hph', hmakes⟩
    · obtain ⟨made, hmade, hcalls⟩ := exists_makes_of_step hdecided hstep
      rcases hcalls call hcall with rfl | hcall
      · exact .inr ⟨ph, List.mem_cons_self, hmade⟩
      · exact .inl hcall
    · exact .inr ⟨ph', List.mem_cons_of_mem _ hph', hmakes⟩
  | case2 state ph rest' m hstep =>
    obtain ⟨rfl, rfl⟩ := Prod.mk.inj (Except.ok.inj h)
    obtain ⟨made, hmade, hcalls⟩ := exists_makes_of_step hdecided hstep
    rcases hcalls call hcall with rfl | hcall
    · exact .inr ⟨ph, List.mem_cons_self, hmade⟩
    · exact .inl hcall
  | case4 state pending eof m hfin =>
    obtain ⟨rfl, rfl⟩ := Prod.mk.inj (Except.ok.inj h)
    cases state with
    | between top outer => exact .inl (mem_calls_of_finishFrames hfin hcall)
    | within part outer => exact absurd hfin finish_within
  | case3 | case5 | case6 | case7 | case8 | case9 => exact absurd h (by simp)

theorem mem_of_runConstruction {limit : Nat} {drawn : List Invocation} {feed rest : Feed}
    {n : Node} (h : runConstruction limit drawn feed = .ok (n, rest)) (hcall : call ∈ n.leaves) :
    call ∈ drawn ∨ ∃ ph ∈ feed.phrases, ph.Makes limit call := by
  have hstop : ∀ {drawn : List Invocation} {t : Token} {feed : Feed},
      runConstruction.stop drawn t feed = .ok (n, rest) → call ∈ drawn := by
    intro drawn t feed h
    unfold runConstruction.stop at h
    split at h
    · exact absurd h (by simp)
    · obtain ⟨rfl, -⟩ := Prod.mk.inj (Except.ok.inj h)
      rw [Node.leaves_ofChildren, Node.leavesAll_invocations] at hcall
      exact List.mem_reverse.mp hcall
  fun_induction runConstruction limit drawn feed with
  | case1 drawn ph rest' op hop call' hmade ih =>
    rcases ih h with hcall | ⟨ph', hph', hmakes⟩
    · rcases List.mem_cons.mp hcall with rfl | hcall
      · exact .inr ⟨ph, List.mem_cons_self, .known hmade⟩
      · exact .inl hcall
    · exact .inr ⟨ph', List.mem_cons_of_mem _ hph', hmakes⟩
  | case3 => exact .inl (hstop h)
  | case4 => exact .inl (hstop h)
  | case2 | case5 | case6 => exact absurd h (by simp)

/-- An undefined operator that is asked for by itself is the first phrase of the feed. -/
theorem exists_of_run_undefined {feed rest : Feed} {n : Node}
    (h : run o (.within .undefined []) feed = .ok (n, rest)) :
    ∃ ph ∈ feed.phrases, ∃ made, ph.undefinedInvocation o.maxNesting = .ok made ∧
      n = .invocation made := by
  cases feed with
  | phrase ph rest' =>
    rw [run, step, stepPart] at h
    cases hmade : ph.undefinedInvocation o.maxNesting with
    | error f => simp [hmade, bind, Except.bind] at h
    | ok made =>
      simp only [hmade, bind, Except.bind, deliver, Except.ok.injEq, Prod.mk.injEq] at h
      exact ⟨ph, List.mem_cons_self, made, hmade, h.1.symm⟩
  | finish pending eof =>
    rw [run] at h
    cases hfin : finish o pending eof (.within .undefined []) with
    | error e => simp [hfin] at h
    | ok m => exact absurd hfin finish_within
  | fault pending e rest' =>
    rw [run] at h
    split at h <;> exact absurd h (by simp)
  | stuck pending e =>
    rw [run] at h
    split at h <;> exact absurd h (by simp)

theorem decided_start {p : Production} (hp : p ≠ .unknownOperator) : Decided (start p) := by
  intro outer
  cases p <;> simp [start] at hp ⊢

theorem calls_start (p : Production) : (start p).calls = [] := by
  cases p <;> rfl

/-- **Productions**: what is read has the invocations that are made of the phrases of the
    feed, or is an undefined operator that has been asked for. -/
theorem exists_makes_of_read {p : Production} {feed rest : Feed} {n : Node}
    (h : read o p feed = .ok (n, rest)) :
    (∀ call ∈ n.leaves, ∃ ph ∈ feed.phrases, ph.Makes o.maxNesting call) ∨
      p = .unknownOperator ∧ ∃ ph ∈ feed.phrases, ∃ made,
        ph.undefinedInvocation o.maxNesting = .ok made ∧ n = .invocation made := by
  unfold read at h
  split at h
  · refine .inl fun call hcall => ?_
    exact (mem_of_runConstruction h hcall).resolve_left List.not_mem_nil
  · by_cases hp : p = .unknownOperator
    · subst hp
      exact .inr ⟨rfl, exists_of_run_undefined h⟩
    · refine .inl fun call hcall => ?_
      have hmem := mem_calls_of_run (decided_start hp) h hcall
      rw [calls_start] at hmem
      exact hmem.resolve_left List.not_mem_nil

end Recognizer

/-! ## Sessions -/

/-- The production that a request asks for. -/
def Request.production : Request → Production
  | part p => p
  | whole p => p

namespace Session

/-- What a request finds is what reading its production finds. -/
theorem exists_read_of_answer {s : Session} {r : Request} {n : Node}
    (h : (s.answer r).1 = .ok n) :
    ∃ rest, Recognizer.read s.options r.production s.feed = .ok (n, rest) := by
  unfold answer at h
  split at h
  · next m rest hfind =>
    obtain rfl := Except.ok.inj h
    cases r with
    | part p => exact ⟨rest, hfind⟩
    | whole p =>
      simp only [find, Recognizer.readAll] at hfind
      split at hfind
      · exact absurd hfind (by simp)
      · next m' rest' hread =>
        split at hfind
        · exact absurd hfind (by simp)
        · obtain ⟨rfl, rfl⟩ := Prod.mk.inj (Except.ok.inj hfind)
          exact ⟨_, hread⟩
  · exact absurd h (by simp)

/-- Parsing is the first request of a session. -/
theorem answer_start_content (o : Options) (bytes : List UInt8) (log : ErrorLog) :
    ((start o bytes log).answer (.part .content)).1 =
      (ContentStream.parse o bytes).map (·.root) := by
  unfold ContentStream.parse answer find start
  simp only
  split <;> simp_all [Except.map]

theorem answer_start_whole (p : Production) (bytes : List UInt8) (log : ErrorLog) :
    ((start Profile.default.options bytes log).answer (.whole p)).1 = Node.parseAs p bytes := by
  unfold Node.parseAs answer find start
  simp only
  split <;> simp_all

/-- What every answer keeps holds when any request of a session is answered. -/
theorem exists_of_answers {Inv : Session → Prop} (hkeep : ∀ s r, Inv s → Inv (s.answer r).2)
    {s : Session} (hs : Inv s) {rs : List Request} {i : Nat} {r : Request}
    {a : Except ParseError Node} (hr : rs[i]? = some r) (ha : (s.answers rs).1[i]? = some a) :
    ∃ s', Inv s' ∧ (s'.answer r).1 = a := by
  induction rs generalizing s i with
  | nil => exact absurd hr (by simp)
  | cons r' rs ih =>
    cases i with
    | zero =>
      obtain rfl := Option.some.inj hr
      exact ⟨s, hs, Option.some.inj ha⟩
    | succ i => exact ih (hkeep s r' hs) hr ha

theorem length_answers (s : Session) (rs : List Request) :
    (s.answers rs).1.length = rs.length := by
  induction rs generalizing s with
  | nil => rfl
  | cons r rs ih => exact congrArg (· + 1) (ih (s.answer r).2)

theorem exists_of_mem_answers {Inv : Session → Prop} (hkeep : ∀ s r, Inv s → Inv (s.answer r).2)
    {s : Session} (hs : Inv s) {rs : List Request} {a : Except ParseError Node}
    (ha : a ∈ (s.answers rs).1) : ∃ s' r, Inv s' ∧ (s'.answer r).1 = a := by
  obtain ⟨i, hi⟩ := List.mem_iff_getElem?.mp ha
  have hlt : i < rs.length := by
    rw [← length_answers s rs]
    exact (List.getElem?_eq_some_iff.mp hi).1
  obtain ⟨s', hs', hanswer⟩ := exists_of_answers hkeep hs (List.getElem?_eq_getElem hlt) hi
  exact ⟨s', _, hs', hanswer⟩

end Session

/-! ## The catalog -/

/-- The catalog has what an invocation says of its operator, and accepts its operands. Of
    an operator that the catalog does not have, nothing is said. -/
def Invocation.Catalogued (call : Invocation) : Prop :=
  match Operator.lookup? call.keyword with
  | some op => call.production = op.production ∧ call.category = some op.category ∧
      ∀ spans place, op.check call.operands spans place = .ok ()
  | none => call.production = .unknownOperator ∧ call.category = none

theorem Phrase.Makes.catalogued {limit : Nat} {ph : Phrase} {call : Invocation}
    (h : ph.Makes limit call) : call.Catalogued := by
  unfold Invocation.Catalogued
  cases h with
  | known hmade =>
    obtain ⟨op, xs, hop, rfl, -, hfits, rfl⟩ := invocation_eq_ok_iff.mp hmade
    have hop' : Operator.lookup? (ph.invoke op.production (some op.category) xs).keyword =
        some op := hop
    rw [hop']
    exact ⟨rfl, rfl, fun spans place => Operator.check_eq_ok_iff.mpr hfits⟩
  | outside hop hmade =>
    obtain ⟨xs, -, rfl⟩ := undefinedInvocation_eq_ok_iff.mp hmade
    have hop' : Operator.lookup? (ph.invoke .unknownOperator none xs).keyword = none := hop
    rw [hop']
    exact ⟨rfl, rfl⟩

/-- The catalog agrees with every invocation of a tree. -/
def Node.Catalogued (n : Node) : Prop :=
  ∀ call ∈ n.invocations, call.Catalogued

/-- What is taken for an undefined operator is one, or the catalog does not agree with it. -/
theorem Invocation.catalogued_iff_of_undefined {call : Invocation}
    (hproduction : call.production = .unknownOperator) (hcategory : call.category = none) :
    call.Catalogued ↔ Operator.lookup? call.keyword = none := by
  unfold Catalogued
  cases hop : Operator.lookup? call.keyword with
  | none => simp [hproduction, hcategory]
  | some op =>
    have hne := Grammar.production_ne_of_lookup? hop
    simp [hproduction, hne.symm]

namespace Session

/-- An answer agrees with the catalog, whatever the session has read before, unless it is a
    known operator that has been asked for as an undefined one. -/
theorem catalogued_iff_of_answer {s : Session} {r : Request} {n : Node}
    (h : (s.answer r).1 = .ok n) :
    n.Catalogued ↔ (r.production = .unknownOperator →
      ∀ call ∈ n.invocations, Operator.lookup? call.keyword = none) := by
  obtain ⟨rest, hread⟩ := exists_read_of_answer h
  unfold Node.Catalogued
  rw [Node.invocations_eq_leaves]
  by_cases hp : r.production = .unknownOperator
  · rw [hp] at hread
    obtain ⟨ph, -, made, hmade, rfl⟩ := Recognizer.exists_of_run_undefined hread
    obtain ⟨xs, -, rfl⟩ := Phrase.undefinedInvocation_eq_ok_iff.mp hmade
    have hiff := @Invocation.catalogued_iff_of_undefined (ph.invoke .unknownOperator none xs)
      rfl rfl
    simp [Node.leaves, hiff, hp]
  · have hall : ∀ call ∈ n.leaves, call.Catalogued := by
      intro call hcall
      rcases Recognizer.exists_makes_of_read hread with hmakes | ⟨heq, -⟩
      · obtain ⟨ph, -, hmade⟩ := hmakes call hcall
        exact hmade.catalogued
      · exact absurd heq hp
    exact ⟨fun _ heq => absurd heq hp, fun _ => hall⟩

end Session

/-- **Agreement with the catalog**: the invocations of a content stream, of any production
    that is parsed by itself, and of everything that a session answers have the production
    and the category that the catalog has for their operator, which accepts their
    operands, or those of undefined operators if the catalog does not have it. An undefined
    operator that is asked for by itself may be any operator, and agrees with the catalog if
    and only if the catalog does not have it. -/
theorem catalogued_iff (o : Options) (bytes : List UInt8) (log : ErrorLog) :
    (∀ s, ContentStream.parse o bytes = .ok s → s.root.Catalogued) ∧
    (∀ p n, Node.parseAs p bytes = .ok n →
      (n.Catalogued ↔ (p = .unknownOperator →
        ∀ call ∈ n.invocations, Operator.lookup? call.keyword = none))) ∧
    ∀ (rs : List Request) (i : Nat) (r : Request) (n : Node), rs[i]? = some r →
      ((Session.start o bytes log).answers rs).1[i]? = some (.ok n) →
      (n.Catalogued ↔ (r.production = .unknownOperator →
        ∀ call ∈ n.invocations, Operator.lookup? call.keyword = none)) := by
  refine ⟨?_, ?_, ?_⟩
  · intro s h
    have hanswer : ((Session.start o bytes .empty).answer (.part .content)).1 = .ok s.root := by
      rw [Session.answer_start_content, h]
      rfl
    exact (Session.catalogued_iff_of_answer hanswer).mpr fun hp => absurd hp (by decide)
  · intro p n h
    exact Session.catalogued_iff_of_answer ((Session.answer_start_whole p bytes .empty).trans h)
  · intro rs i r n hr hn
    have hkeep : ∀ (s : Session) (r : Request), True → True := fun _ _ h => h
    obtain ⟨s, -, hanswer⟩ := Session.exists_of_answers hkeep trivial hr hn
    exact Session.catalogued_iff_of_answer hanswer

/-- A compatibility section with an undefined operator in it. -/
theorem catalogued_iff_section :
    ∃ s, ContentStream.parse Profile.default.options (Byte.ofChars "BX 1 zz EX".toList) = .ok s ∧
      s.operatorCount = 3 ∧ s.root.Catalogued := by
  have hcount : ((ContentStream.parse Profile.default.options
      (Byte.ofChars "BX 1 zz EX".toList)).toOption.any fun s => s.operatorCount == 3) = true := by
    decide +kernel
  match h : ContentStream.parse Profile.default.options (Byte.ofChars "BX 1 zz EX".toList) with
  | .ok s =>
    rw [h] at hcount
    exact ⟨s, rfl, beq_iff_eq.mp hcount, (catalogued_iff _ _ .empty).1 s h⟩
  | .error e =>
    rw [h] at hcount
    exact absurd hcount Bool.false_ne_true

/-- The operator `BX` is in the catalog, but not if it is asked for as an undefined one. -/
theorem not_catalogued_beginCompatibility :
    ∃ call, Node.parseAs .unknownOperator (Byte.ofChars "BX".toList) = .ok (.invocation call) ∧
      ¬ call.Catalogued := by
  have hop : Operator.lookup? "BX" =
      some ⟨"BX", .compatibility, .beginCompatibility, .fixed []⟩ := by
    decide +kernel
  have hanswer : ((Node.parseAs .unknownOperator (Byte.ofChars "BX".toList)).toOption.any
      fun n => decide (n.production = .unknownOperator ∧ n.keyword? = some "BX")) = true := by
    decide +kernel
  match h : Node.parseAs .unknownOperator (Byte.ofChars "BX".toList) with
  | .ok (.invocation call) =>
    rw [h] at hanswer
    obtain ⟨hproduction, hkeyword⟩ := of_decide_eq_true hanswer
    refine ⟨call, rfl, fun hcatalogued => ?_⟩
    unfold Invocation.Catalogued at hcatalogued
    rw [Option.some.inj hkeyword, hop] at hcatalogued
    exact absurd (hproduction.symm.trans hcatalogued.1) (by decide)
  | .ok (.group p cs s) =>
    rw [h] at hanswer
    exact absurd (of_decide_eq_true hanswer).2 (by simp [Node.keyword?])
  | .error e =>
    rw [h] at hanswer
    exact absurd hanswer Bool.false_ne_true

end PageContent
