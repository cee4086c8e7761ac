import PageContent.Proofs.PathDescent
import PageContent.Proofs.Fragments

/-! # Items by recursive descent

    The functions for groups and items call each other, where the recogniser has a
    stack of frames.

    * **Sections**: the items of a section are read one after the other, each from
      a stream that is shorter than the one before. The induction is on its size.
    * **Items**: the next operator says which part an item is, and the part is
      read as the recogniser reads it.
    * **Requests**: with no frame around it, a function reads a production.
-/

namespace PageContent

/-- Tokens before an operator are not the end of the stream. -/
theorem Feed.Tidy.anchored {feed : Feed} (h : feed.Tidy) : feed.Anchored := by
  have hbefore : ∀ ts : List Token, (∀ t ∈ ts, t.lexeme.endsOperands = false) →
      ∀ t ∈ ts, t.lexeme ≠ .eof := by
    intro ts hts t ht heof
    have hends := hts t ht
    simp [heof, Lexeme.endsOperands] at hends
  induction feed with
  | phrase p rest ih => exact ⟨hbefore _ h.1, ih h.2⟩
  | fault pending e rest ih => exact ⟨hbefore _ h.1, ih h.2⟩
  | finish pending eof => exact hbefore _ h.1
  | stuck pending e => exact hbefore _ h

namespace Recognizer

variable {o : Options} {outer : List Frame}

/-! ## Runs between items -/

/-- A phrase between two items that does not close their section. -/
theorem run_between_phrase {top : Frame} {ph : Phrase}
    (hclose : closes ph top.enclosure = false) (rest : Feed) :
    run o (.between top outer) (.phrase ph rest) =
      match stepItem o ph top outer with
      | .ok pr => goOn o rest pr
      | .error f => .error (f.error, ph.leave f.left rest) := by
  rw [run_phrase]
  have hstep : step o ph (.between top outer) = stepItem o ph top outer := by
    unfold step
    cases henclosure : top.enclosure with
    | stream => simp only [henclosure]
    | within s =>
      rw [henclosure] at hclose
      simp only [henclosure, hclose, Bool.false_eq_true, if_false]
  cases hitem : stepItem o ph top outer with
  | ok pr => simp only [hstep, hitem]
  | error f => simp only [hstep, hitem]

/-- An item is a part where the step that begins it is that of the part. -/
theorem run_begins {top : Frame} {ph : Phrase} (hclose : closes ph top.enclosure = false)
    {part : Part}
    (hstep : stepItem o ph top outer = stepPart o.maxNesting ph (top :: outer) part)
    (rest : Feed) :
    run o (.between top outer) (.phrase ph rest) =
      run o (.within part (top :: outer)) (.phrase ph rest) := by
  rw [run_between_phrase hclose, hstep, run_phrase]
  rfl

theorem run_refused {top : Frame} {ph : Phrase} (hclose : closes ph top.enclosure = false)
    {expected : Expectation} (hstep : stepItem o ph top outer = .error (ph.refused expected))
    (rest : Feed) :
    run o (.between top outer) (.phrase ph rest) =
      .error (.misplaced ph.token expected, .phrase ph rest) := by
  rw [run_between_phrase hclose, hstep]
  rfl

/-- A phrase that closes a section. -/
theorem step_closing (o : Options) (outer : List Frame) {s : Section} {ph : Phrase}
    (hclose : closes ph (.within s) = true) (nodes : List Node) :
    step o ph (.between ⟨.within s, nodes.reverse⟩ outer) =
      ph.invocation o.maxNesting s.closing >>= fun call =>
        .ok (deliver (.ofChildren s.production (nodes ++ [.invocation call])) outer) := by
  simp only [step, hclose, if_true, Frame.node, Frame.push, List.reverse_cons, List.reverse_reverse]

/-- The end of the stream in a section. -/
theorem run_unclosed (o : Options) (outer : List Frame) (s : Section) (nodes : List Node)
    (eof : Token) :
    run o (.between ⟨.within s, nodes.reverse⟩ outer) (.finish [] eof) =
      if s = .stateBlock ∧ o.unclosedStates then
        goOn o (.finish [] eof) (deliver (.ofChildren s.production nodes) outer)
      else .error (.misplaced eof (.keywordOf s.closing), .finish [] eof) := by
  have hnode : Frame.node ⟨.within s, nodes.reverse⟩ = .ofChildren s.production nodes := by
    simp [Frame.node]
  have hfinish : finish o [] eof (.between ⟨.within s, nodes.reverse⟩ outer) =
      finishFrames o [] eof ⟨.within s, nodes.reverse⟩ outer := rfl
  rw [run, hfinish, finishFrames.eq_def]
  by_cases hs : s = .stateBlock ∧ o.unclosedStates = true
  · cases outer with
    | nil =>
      simp only [if_pos hs, hnode]
      rfl
    | cons f outer' =>
      simp only [if_pos hs, hnode]
      show _ = run o (.between (f.push (.ofChildren s.production nodes)) outer') (.finish [] eof)
      rw [run]
      rfl
  · simp only [if_neg hs]

end Recognizer

/-- The parts before anything of them has been read. -/
inductive Part.Initial : Part → Prop where
  | opening (s : Section) : Initial (.opening s)
  | single {p : Production} (hgroup : p.isGroup = false) (hp : p ≠ .unknownOperator) :
      Initial (.single p)
  | undefined : Initial .undefined
  | path : Initial (.path [] none)
  | image : Initial .image

theorem Part.initial_of_role {op : Operator} (hop : op ∈ Operator.catalog) {level : Level}
    {glyph : Bool} {part : Part} (h : op.role level glyph = .begins part) : part.Initial := by
  obtain ⟨hgroup, hp⟩ := Recognizer.isGroup_of_mem_catalog hop
  cases Operator.mayBegin_of_role h with
  | single h => exact Initial.single hgroup hp
  | opening h hlevel => exact Initial.opening _
  | path h hlevel => exact Initial.path
  | image h hlevel => exact Initial.image

namespace Descent

open Recognizer

section Items

variable {o : Options} {d : Descent} {outer : List Frame}

/-! ## Groups and items -/

/-- Opening a group is what the recogniser does, which has as many open. -/
theorem enterGroup_ends (hd : d.Consistent) (hoptions : d.options = o)
    (hdepth : d.groups.depth = Frame.depth outer) (s : Section) (call : Invocation) :
    Ends (enterGroup call.span) d fun y d' => d'.feed = d.feed ∧
      match y with
      | .ok _ => openSection o.maxNesting s call outer =
            .ok (.more (.between ⟨.within s, [.invocation call]⟩ outer)) ∧
          d'.counters = (d.groups.depth + 1, d.containers.depth, d.compatibility)
      | .error e => openSection o.maxNesting s call outer = .error ⟨e, none⟩ := by
  have hguard : { groupGuard o with depth := Frame.depth outer } = d.groups := by
    rw [← hdepth, ← hoptions]
    exact hd.groups.symm
  simp only [groupGuard] at hguard
  simp only [openSection, hguard]
  refine Ends.get ?_
  cases henter : d.groups.enter call.span with
  | error e => exact Ends.throw hd ⟨rfl, rfl⟩
  | ok guard =>
    have heq : guard = { d.groups with depth := d.groups.depth + 1 } := by
      unfold NestingGuard.enter at henter
      split at henter
      · exact (Except.ok.inj henter).symm
      · exact absurd henter (by simp)
    subst heq
    exact ⟨_, _, rfl, later_withCounters hd
      { d with groups := { d.groups with depth := d.groups.depth + 1 } }, rfl, rfl, rfl⟩

theorem leaveGroup_eq {n : Nat} (hdepth : d.groups.depth = n + 1) :
    leaveGroup d = some (.ok (), { d with groups := { d.groups with depth := n } }) := by
  unfold leaveGroup
  show (Call.decrease d.groups.depth >>= fun _ => _) d = _
  rw [hdepth]
  rfl

theorem leaveCompatibility_eq {n : Nat} (hdepth : d.compatibility = n + 1) :
    leaveCompatibility d = some (.ok (), { d with compatibility := n }) := by
  unfold leaveCompatibility
  show (Call.decrease d.compatibility >>= fun _ => _) d = _
  rw [hdepth]
  rfl

/-- All nodes of a section, some of which were there before, are those with which the
    recogniser goes on after the section. -/
def Fills (o : Options) (s : Section) (nodes : List Node) (outer : List Frame) (d : Descent)
    (y : Except ParseError (List Node)) (d' : Descent) : Prop :=
  match y with
  | .ok all => d'.counters = d.counters ∧
      run o (.between ⟨.within s, nodes.reverse⟩ outer) d.feed =
        goOn o d'.feed (deliver (.ofChildren s.production all) outer)
  | .error e => run o (.between ⟨.within s, nodes.reverse⟩ outer) d.feed = .error (e, d'.feed)

/-- The items of a section are read up to its end, with fewer than `n` tokens left. -/
def SectionsPerform (o : Options) (n : Nat) : Prop :=
  ∀ {d : Descent} {s : Section} {nodes : List Node} {outer : List Frame},
    Inside d o (⟨.within s, nodes.reverse⟩ :: outer) → d.feed.size < n →
    Ends (sectionItems s (s.inner (Frame.level outer)) nodes) d (Fills o s nodes outer d)

/-- What is read after the opening operator of a section is what the recogniser reads
    after it. -/
def Opens (o : Options) (s : Section) (call : Invocation) (outer : List Frame) (d : Descent)
    (y : Except ParseError Node) (d' : Descent) : Prop :=
  match y with
  | .ok m => d'.counters = d.counters ∧
      afterCall o (fun call => openSection o.maxNesting s call outer) (.ok (call, d.feed)) =
        goOn o d'.feed (deliver m outer)
  | .error e => afterCall o (fun call => openSection o.maxNesting s call outer)
      (.ok (call, d.feed)) = .error (e, d'.feed)

theorem sectionAfter_ends {n : Nat} (hitems : SectionsPerform o n) {s : Section}
    {call : Invocation} (hd : d.Consistent) (hoptions : d.options = o)
    (hcounters : d.counters = ((Frame.counters outer).1, 0,
      (Frame.counters outer).2.2 + if s = .compatibility then 1 else 0))
    (hsize : d.feed.size < n) :
    Ends (sectionAfter s (s.inner (Frame.level outer)) call) d (Opens o s call outer d) := by
  have hdepth : d.groups.depth = Frame.depth outer := congrArg (·.1) hcounters
  rw [sectionAfter]
  refine Ends.bind (enterGroup_ends hd hoptions hdepth s call) ?_ ?_
  · intro u d₁ hlater₁ hopen
    obtain ⟨hfeed₁, hopen, hcounters₁⟩ := hopen
    have hinside : Inside d₁ o (⟨.within s, [.invocation call].reverse⟩ :: outer) := by
      refine ⟨hlater₁.consistent, hlater₁.options.trans hoptions, ?_⟩
      have hcontainers : d.containers.depth = 0 := congrArg (·.2.1) hcounters
      have hcompatibility := congrArg (·.2.2) hcounters
      rw [hcounters₁, Frame.counters_within, hdepth, hcontainers]
      exact congrArg (fun k => (Frame.depth outer + 1, 0, k)) hcompatibility
    have hafter : afterCall o (fun call => openSection o.maxNesting s call outer)
        (.ok (call, d.feed)) =
        run o (.between ⟨.within s, [.invocation call].reverse⟩ outer) d₁.feed := by
      simp only [afterCall, hopen, hfeed₁]
      rfl
    refine Ends.bind (hitems hinside (by rw [hfeed₁]; exact hsize)) ?_ ?_
    · intro all d₂ hlater₂ hfills
      obtain ⟨hcounters₂, hrun⟩ := hfills
      have hopen₂ := hcounters₂.trans hcounters₁
      have hlater₃ := later_withCounters hlater₂.consistent
        { d₂ with groups := { d₂.groups with depth := d.groups.depth } }
      refine Ends.run (leaveGroup_eq (congrArg (·.1) hopen₂)) hlater₃ ?_
      refine Ends.pure hlater₃.consistent ⟨?_, hafter.trans hrun⟩
      have hrest := congrArg (·.2) hopen₂
      exact congrArg (fun k => (d.groups.depth, k)) hrest
    · intro e d₂ hlater₂ hrun
      exact hafter.trans hrun
  · intro e d₁ hlater₁ hopen
    obtain ⟨hfeed₁, hopen⟩ := hopen
    show afterCall o (fun call => openSection o.maxNesting s call outer) _ = _
    simp only [afterCall, hopen, hfeed₁]

/-- A compatibility section counts from its operator on. -/
theorem compatibility_ends {n : Nat} (hitems : SectionsPerform o n) {call : Invocation}
    (h : Inside d o outer) (hsize : d.feed.size < n) :
    Ends (do
        enterCompatibility
        let m ← sectionAfter .compatibility (Section.inner .compatibility (Frame.level outer)) call
        leaveCompatibility
        return m) d (Opens o .compatibility call outer d) := by
  have hlater := later_withCounters h.consistent
    { d with compatibility := d.compatibility + 1 }
  have hcounters : ({ d with compatibility := d.compatibility + 1 } : Descent).counters =
      ((Frame.counters outer).1, 0, (Frame.counters outer).2.2 + 1) := by
    rw [← h.counters, ← h.containers]
    rfl
  refine Ends.modify hlater ?_
  refine Ends.bind (sectionAfter_ends hitems hlater.consistent h.options hcounters hsize) ?_ ?_
  · intro m d₁ hlater₁ hopens
    obtain ⟨hcounters₁, hrun₁⟩ := hopens
    have hlater₂ := later_withCounters hlater₁.consistent
      { d₁ with compatibility := d.compatibility }
    refine Ends.run (leaveCompatibility_eq (congrArg (·.2.2) hcounters₁)) hlater₂ ?_
    refine Ends.pure hlater₂.consistent ⟨?_, hrun₁⟩
    have hgroups : d₁.groups.depth = d.groups.depth := congrArg (·.1) hcounters₁
    have hcontainers : d₁.containers.depth = d.containers.depth := congrArg (·.2.1) hcounters₁
    show (d₁.groups.depth, d₁.containers.depth, d.compatibility) = d.counters
    rw [hgroups, hcontainers]
    rfl
  · intro e d₁ hlater₁ hrun₁
    exact hrun₁

/-- The other sections do not count. -/
theorem plain_ends {n : Nat} (hitems : SectionsPerform o n) {s : Section} {call : Invocation}
    (hs : s ≠ .compatibility) (h : Inside d o outer) (hsize : d.feed.size < n) :
    Ends (sectionAfter s (s.inner (Frame.level outer)) call) d (Opens o s call outer d) := by
  refine sectionAfter_ends hitems h.consistent h.options ?_ hsize
  rw [if_neg hs]
  exact h.counters

/-- **Groups** are read from their opening operator to their end. -/
theorem group_performs {n : Nat} (hitems : SectionsPerform o n) (h : Inside d o outer)
    (hsize : d.feed.size ≤ n) (s : Section) :
    Performs o outer (group s (Frame.level outer)) d
      (run o (.within (.opening s) outer) d.feed) := by
  have hleft : ∀ call f, openSection o.maxNesting s call outer = .error f → f.left = none := by
    intro call f hf
    unfold openSection at hf
    dsimp only at hf
    split at hf
    · obtain rfl := Except.error.inj hf
      rfl
    · exact absurd hf (by simp)
  have hrun : run o (.within (.opening s) outer) d.feed =
      afterCall o (fun call => openSection o.maxNesting s call outer)
        (d.feed.call o.maxNesting (Phrase.invocation o.maxNesting s.opening)
          (.keywordOf s.opening)) :=
    run_within rfl (fun _ => rfl) hleft d.feed
  rw [group]
  refine Ends.call (h.invocation s.opening) hrun ?_ ?_
  · intro call d₁ hlater₁ hcounters₁ hsize₁ hrun₁
    have h₁ := h.later hlater₁ hcounters₁
    have hless : d₁.feed.size < n := Nat.lt_of_lt_of_le hsize₁ hsize
    rw [hrun₁]
    have hgroup : ∀ y d₂, Later d₁ d₂ → Opens o s call outer d₁ y d₂ →
        match y with
        | .ok m => afterCall o (fun call => openSection o.maxNesting s call outer)
              (.ok (call, d₁.feed)) = goOn o d₂.feed (deliver m outer) ∧
            d₂.counters = d.counters ∧ d₂.feed.size < d.feed.size
        | .error e => afterCall o (fun call => openSection o.maxNesting s call outer)
            (.ok (call, d₁.feed)) = .error (e, d₂.feed) := by
      intro y d₂ hlater₂ hopens
      cases y with
      | ok m =>
        exact ⟨hopens.2, hopens.1.trans hcounters₁, Nat.lt_of_le_of_lt hlater₂.size hsize₁⟩
      | error e => exact hopens
    cases s with
    | textObject => exact Ends.mono (plain_ends hitems (by simp) h₁ hless) hgroup
    | stateBlock => exact Ends.mono (plain_ends hitems (by simp) h₁ hless) hgroup
    | markedContent => exact Ends.mono (plain_ends hitems (by simp) h₁ hless) hgroup
    | compatibility => exact Ends.mono (compatibility_ends hitems h₁ hless) hgroup
  · intro e d₁ hrun₁
    exact hrun₁

/-- The node of a production that is no group is its invocation. -/
theorem node_single {p : Production} (hgroup : p.isGroup = false) (hp : p ≠ .unknownOperator)
    (level : Level) : node level p = do return .invocation (← invocation p) := by
  rw [node]
  -- no other rule applies
  all_goals
    intro heq
    subst heq
    first
      | exact absurd hgroup (by decide)
      | exact absurd rfl hp

theorem node_section (s : Section) (level : Level) :
    node level s.production = group s level := by
  cases s <;> rw [Section.production, node]

theorem node_performs {n : Nat} (hitems : SectionsPerform o n) (h : Inside d o outer)
    (hsize : d.feed.size ≤ n) {part : Part} (hpart : part.Initial) :
    Performs o outer (node (Frame.level outer) part.production) d
      (run o (.within part outer) d.feed) := by
  cases hpart with
  | opening s =>
    show Performs o outer (node (Frame.level outer) s.production) d _
    rw [node_section]
    exact group_performs hitems h hsize s
  | @single p hgroup hp =>
    show Performs o outer (node (Frame.level outer) p) d _
    rw [node_single hgroup hp]
    exact call_performs (h.invocation p) rfl fun _ => rfl
  | undefined =>
    have hcall := undefinedInvocation_reads h.consistent h.containers
    rw [h.options] at hcall
    show Performs o outer (node (Frame.level outer) .unknownOperator) d _
    rw [node]
    exact call_performs hcall rfl fun _ => rfl
  | path =>
    show Performs o outer (node (Frame.level outer) .pathObject) d _
    rw [node]
    exact pathObject_performs h
  | image =>
    show Performs o outer (node (Frame.level outer) .inlineImage) d _
    rw [node]
    exact inlineImage_performs h

theorem dangling_performs {top : Frame} (hd : d.Consistent) {eof : Token}
    (hfinish : ∃ pending, pending ≠ [] ∧ d.feed = .finish pending eof) :
    Performs o (top :: outer) (dangling eof) d (run o (.between top outer) d.feed) := by
  obtain ⟨pending, hpending, hfeed⟩ := hfinish
  obtain ⟨first, others, rfl⟩ := List.exists_cons_of_ne_nil hpending
  have htidy := tidy_feed d
  rw [hfeed] at htidy
  refine Reads.bind (peek_reads hd) ?_ ?_
  · intro t d' hlater hlook hcounters
    obtain ⟨hhead, hfeed'⟩ := Feed.look_eq_ok_iff.mp hlook
    rw [hfeed] at hhead
    obtain rfl := Except.ok.inj hhead
    have hne : first.lexeme ≠ .eof := by
      intro heof
      have hends := htidy.1 first (by simp)
      simp [heof, Lexeme.endsOperands] at hends
    rw [if_neg hne]
    refine Ends.throw hlater.consistent ?_
    show run o (.between top outer) d.feed = _
    rw [hfeed', hfeed, run, finish, finishFrames]
  · intro e d' hlook
    obtain ⟨e', hhead, -⟩ := Feed.look_eq_error_iff.mp hlook
    rw [hfeed] at hhead
    exact absurd hhead (by simp [Feed.head])

/-- An operator that is not in the catalog is read where compatibility sections are open. -/
theorem undefinedItem_performs {top : Frame} {ph : Phrase} {rest : Feed}
    (h : Inside d o (top :: outer)) (hphrase : d.feed = .phrase ph rest)
    (hclose : closes ph top.enclosure = false) (hunknown : ph.operator? = none) :
    Performs o (top :: outer) (undefinedItem ph.token) d (run o (.between top outer) d.feed) := by
  have hcompatibility : d.compatibility = (Frame.counters (top :: outer)).2.2 :=
    congrArg (·.2.2) h.counters
  have hiff : (0 < d.compatibility ∧ d.options.undefinedOperators = true) ↔
      (Frame.inCompatibility (top :: outer) && o.undefinedOperators) = true := by
    rw [hcompatibility, ← Frame.inCompatibility_iff, h.options, Bool.and_eq_true]
  refine Ends.get ?_
  split
  · next hallowed =>
    rw [hiff] at hallowed
    have hcall := undefinedInvocation_reads h.consistent h.containers
    rw [h.options] at hcall
    have hstep : stepItem o ph top outer =
        stepPart o.maxNesting ph (top :: outer) .undefined := by
      simp [stepItem, hunknown, hallowed]
    have hrun := run_begins hclose hstep rest
    rw [← hphrase] at hrun
    rw [hrun]
    exact call_performs hcall rfl fun _ => rfl
  · next hforbidden =>
    rw [hiff] at hforbidden
    have hstep : stepItem o ph top outer = .error (ph.refused .contentOperator) := by
      simp only [stepItem, hunknown, if_neg hforbidden]
    have hrun := run_refused hclose hstep rest
    rw [← hphrase] at hrun
    exact Ends.throw h.consistent hrun

/-- An operator of the catalog begins a part, or has no place here. -/
theorem catalogItem_performs {n : Nat} (hitems : SectionsPerform o n) {top : Frame} {ph : Phrase}
    {rest : Feed} {op : Operator} (h : Inside d o (top :: outer)) (hsize : d.feed.size ≤ n)
    (hphrase : d.feed = .phrase ph rest) (hclose : closes ph top.enclosure = false)
    (hop : Operator.lookup? ph.keyword = some op) :
    Performs o (top :: outer)
      (match op.role (Frame.level (top :: outer)) top.isFresh with
      | .begins part => node (Frame.level (top :: outer)) part.production
      | .needsPath => throw (.misplaced ph.token .pathConstruction)
      | .outOfPlace => throw (.misplaced ph.token (.allowedAt (Frame.level (top :: outer))))) d
      (run o (.between top outer) d.feed) := by
  have hknown : ph.operator? = some op := hop
  -- an operator that begins nothing here is refused as the recogniser refuses it
  have hrefused : ∀ expected, stepItem o ph top outer = .error (ph.refused expected) →
      Performs o (top :: outer) (throw (.misplaced ph.token expected)) d
        (run o (.between top outer) d.feed) := by
    intro expected hstep
    have hrun := run_refused hclose hstep rest
    rw [← hphrase] at hrun
    exact Ends.throw h.consistent hrun
  cases hrole : op.role (Frame.level (top :: outer)) top.isFresh with
  | begins part =>
    have hinitial := Part.initial_of_role (Operator.mem_catalog_of_lookup? hop) hrole
    have hstep : stepItem o ph top outer = stepPart o.maxNesting ph (top :: outer) part := by
      simp only [stepItem, hknown, hrole]
    have hrun := run_begins hclose hstep rest
    rw [← hphrase] at hrun
    rw [hrun]
    exact node_performs hitems h hsize hinitial
  | needsPath => exact hrefused _ (by simp only [stepItem, hknown, hrole])
  | outOfPlace => exact hrefused _ (by simp only [stepItem, hknown, hrole])

/-- **Items**: what may stand between two others is read as the recogniser reads it. -/
theorem item_performs {n : Nat} (hitems : SectionsPerform o n) {top : Frame}
    (h : Inside d o (top :: outer)) (hsize : d.feed.size ≤ n)
    (hclose : ∀ ph rest, d.feed = .phrase ph rest → closes ph top.enclosure = false)
    (hend : ∀ eof, d.feed ≠ .finish [] eof) :
    Performs o (top :: outer) (item (Frame.level (top :: outer)) top.isFresh) d
      (run o (.between top outer) d.feed) := by
  rw [item]
  refine peekKeyword_bind h.consistent ?_ ?_
  · intro t d' hlater hcounters hfeed ht
    have h' := h.later hlater hcounters
    rw [← hfeed] at ht hclose hend hsize ⊢
    rw [← hcounters]
    cases hphrase : d'.feed with
    | fault pending e rest => exact absurd ht (by simp [hphrase, Feed.keyword?])
    | stuck pending e => exact absurd ht (by simp [hphrase, Feed.keyword?])
    | finish pending eof =>
      obtain rfl : eof = t := by simpa [hphrase, Feed.keyword?] using ht
      have htidy := tidy_feed d'
      rw [hphrase] at htidy
      rw [htidy.2]
      have hpending : pending ≠ [] := by
        intro hnil
        exact hend eof (hnil ▸ hphrase)
      rw [← hphrase]
      exact dangling_performs h'.consistent ⟨pending, hpending, hphrase⟩
    | phrase ph rest =>
      obtain rfl : ph.token = t := by simpa [hphrase, Feed.keyword?] using ht
      have hclose := hclose ph rest hphrase
      rw [← hphrase]
      simp only [Phrase.token]
      cases hop : Operator.lookup? ph.keyword with
      | none => exact undefinedItem_performs h' hphrase hclose hop
      | some op => exact catalogItem_performs hitems h' hsize hphrase hclose hop
  · intro e d' hseek
    exact run_between_of_seek_error hseek

/-- Whether the stream ends where an operator has been looked for. -/
theorem atEnd_ends (hd : d.Consistent) {t : Token} (ht : d.feed.keyword? = some t) :
    Ends (atEnd t) d fun y d' => ∃ b, y = .ok b ∧ d'.feed = d.feed ∧
      d'.counters = d.counters ∧ (b = true ↔ d.feed = .finish [] t) := by
  have htidy := tidy_feed d
  cases hfeed : d.feed with
  | fault pending e rest => exact absurd ht (by simp [hfeed, Feed.keyword?])
  | stuck pending e => exact absurd ht (by simp [hfeed, Feed.keyword?])
  | phrase ph rest =>
    obtain rfl : ph.token = t := by simpa [hfeed, Feed.keyword?] using ht
    exact Ends.pure hd ⟨false, rfl, hfeed, rfl, by simp⟩
  | finish pending eof =>
    obtain rfl : eof = t := by simpa [hfeed, Feed.keyword?] using ht
    rw [hfeed] at htidy
    unfold atEnd
    rw [if_pos htidy.2]
    refine Reads.bind (peek_reads hd) ?_ ?_
    · intro t d' hlater hlook hcounters
      obtain ⟨hhead, hfeed'⟩ := Feed.look_eq_ok_iff.mp hlook
      refine Ends.pure hlater.consistent ⟨_, rfl, hfeed'.trans hfeed, hcounters, ?_⟩
      rw [hfeed] at hhead
      cases pending with
      | nil =>
        obtain rfl := Except.ok.inj hhead
        simp [htidy.2]
      | cons first others =>
        obtain rfl := Except.ok.inj hhead
        have hends := htidy.1 first (by simp)
        have hne : first.lexeme ≠ .eof := by
          intro heof
          simp [heof, Lexeme.endsOperands] at hends
        simp [hne]
    · intro e d' hlook
      obtain ⟨e', hhead, -⟩ := Feed.look_eq_error_iff.mp hlook
      rw [hfeed] at hhead
      cases pending <;> exact absurd hhead (by simp [Feed.head])

/-- The run after an item has the item behind the others of its frame. -/
theorem run_pushed (e : Enclosure) (nodes : List Node) (m : Node) (feed : Feed) :
    run o (.between ⟨e, (nodes ++ [m]).reverse⟩ outer) feed =
      goOn o feed (deliver m (⟨e, nodes.reverse⟩ :: outer)) := by
  rw [List.reverse_append]
  rfl

/-- As much is open behind an item as in front of it. -/
theorem Inside.pushed {d' : Descent} {e : Enclosure} {nodes : List Node}
    (h : Inside d o (⟨e, nodes.reverse⟩ :: outer)) (hlater : Later d d')
    (hcounters : d'.counters = d.counters) (m : Node) :
    Inside d' o (⟨e, (nodes ++ [m]).reverse⟩ :: outer) := by
  refine ⟨hlater.consistent, hlater.options.trans h.options, ?_⟩
  rw [hcounters, h.counters]
  cases e with
  | stream => rw [Frame.counters_stream, Frame.counters_stream]
  | within s => rw [Frame.counters_within, Frame.counters_within]

/-- Looking ahead does not matter to what fills a section. -/
theorem Fills.of_later {s : Section} {nodes : List Node} {d' d'' : Descent}
    {y : Except ParseError (List Node)} (hfeed : d'.feed = d.feed)
    (hcounters : d'.counters = d.counters) (h : Fills o s nodes outer d' y d'') :
    Fills o s nodes outer d y d'' := by
  cases y with
  | ok all => exact ⟨h.1.trans hcounters, hfeed ▸ h.2⟩
  | error e =>
    rw [Fills, ← hfeed]
    exact h

/-- The operator that ends a section. -/
theorem closing_fills {s : Section} {nodes : List Node} {t : Token}
    (h : Inside d o (⟨.within s, nodes.reverse⟩ :: outer)) (ht : d.feed.keyword? = some t)
    (hcloses : (operator? t).any (fun op => op.production = s.closing) = true) :
    Ends (do return nodes ++ [.invocation (← invocation s.closing)]) d
      (Fills o s nodes outer d) := by
  obtain ⟨op, hop, -⟩ := Option.any_eq_true .. |>.mp hcloses
  obtain ⟨ph, rest, hphrase, rfl, -⟩ := exists_phrase (tidy_feed d) ht hop
  have hrun := run_phrase_call (step_closing o outer hcloses nodes)
    (fun _ _ => left_of_ok) o.maxNesting (.keywordOf s.closing) rest
  rw [← hphrase] at hrun
  refine Ends.call (h.invocation s.closing) hrun ?_ ?_
  · intro call d₁ hlater₁ hcounters₁ hsize₁ hrun₁
    exact Ends.pure hlater₁.consistent ⟨hcounters₁, hrun₁⟩
  · intro e d₁ hrun₁
    exact hrun₁

/-- The end of the stream ends a graphics state block where the options allow it. -/
theorem unclosed_fills {s : Section} {nodes : List Node} {t : Token}
    (h : Inside d o (⟨.within s, nodes.reverse⟩ :: outer)) (hfinish : d.feed = .finish [] t) :
    Ends (do
        if s = .stateBlock ∧ (← get).options.unclosedStates then return nodes
        else throw (.misplaced t (.keywordOf s.closing))) d (Fills o s nodes outer d) := by
  have hrun := run_unclosed o outer s nodes t
  rw [← hfinish] at hrun
  refine Ends.get ?_
  rw [h.options]
  split
  · next hunclosed =>
    rw [if_pos hunclosed] at hrun
    exact Ends.pure h.consistent ⟨rfl, hrun⟩
  · next hunclosed =>
    rw [if_neg hunclosed] at hrun
    exact Ends.throw h.consistent hrun

/-- One more item of a section, and the others after it. -/
theorem item_fills {n : Nat} (hitems : SectionsPerform o n) {s : Section} {nodes : List Node}
    {t : Token} (h : Inside d o (⟨.within s, nodes.reverse⟩ :: outer)) (hsize : d.feed.size ≤ n)
    (ht : d.feed.keyword? = some t)
    (hcloses : ¬ (operator? t).any (fun op => op.production = s.closing) = true)
    (hend : d.feed ≠ .finish [] t) :
    Ends (do
        let m ← item (s.inner (Frame.level outer)) false
        sectionItems s (s.inner (Frame.level outer)) (nodes ++ [m])) d
      (Fills o s nodes outer d) := by
  have hitem : Performs o (⟨.within s, nodes.reverse⟩ :: outer)
      (item (s.inner (Frame.level outer)) false) d
      (run o (.between ⟨.within s, nodes.reverse⟩ outer) d.feed) := by
    have hfresh : Frame.isFresh ⟨.within s, nodes.reverse⟩ = false := by
      cases s <;> rfl
    rw [← Frame.level_within s nodes.reverse outer, ← hfresh]
    apply item_performs hitems h hsize
    · intro ph rest hphrase
      rw [hphrase] at ht
      obtain rfl := Option.some.inj ht
      exact Bool.eq_false_iff.mpr hcloses
    · intro eof hfinish
      rw [hfinish] at ht
      obtain rfl := Option.some.inj ht
      exact hend hfinish
  refine Ends.bind hitem ?_ ?_
  · intro m d₁ hlater₁ hfound
    obtain ⟨hrun, hcounters₁, hsize₁⟩ := hfound
    have hpushed := hrun.trans (run_pushed (.within s) nodes m d₁.feed).symm
    have hothers := hitems (h.pushed hlater₁ hcounters₁ m) (Nat.lt_of_lt_of_le hsize₁ hsize)
    refine Ends.mono hothers ?_
    intro y d₂ hlater₂ hfills
    cases y with
    | ok all => exact ⟨hfills.1.trans hcounters₁, hpushed.trans hfills.2⟩
    | error e => exact hpushed.trans hfills
  · intro e d₁ hlater₁ hrun
    exact hrun

/-- **Sections** are read item after item up to their end. -/
theorem sections_perform (o : Options) (n : Nat) : SectionsPerform o n := by
  induction n with
  | zero =>
    intro d s nodes outer h hsize
    exact absurd hsize (Nat.not_lt_zero _)
  | succ n ih =>
    intro d s nodes outer h hsize
    rw [sectionItems]
    refine peekKeyword_bind h.consistent ?_ ?_
    · intro t d' hlater hcounters hfeed ht
      have h' := h.later hlater hcounters
      rw [← hfeed] at ht hsize
      split
      · next hcloses =>
        refine Ends.mono (closing_fills h' ht hcloses) ?_
        intro y d₁ hlater₁ hfills
        exact hfills.of_later hfeed hcounters
      · next hcloses =>
        refine Ends.bind (atEnd_ends h'.consistent ht) ?_ ?_
        · intro b d₁ hlater₁ hfound
          obtain ⟨b', hb, hfeed₁, hcounters₁, hiff⟩ := hfound
          obtain rfl := Except.ok.inj hb
          have h₁ := h'.later hlater₁ hcounters₁
          have hagain : ∀ y d₂, Later d₁ d₂ → Fills o s nodes outer d₁ y d₂ →
              Fills o s nodes outer d y d₂ := fun y d₂ _ hfills =>
            hfills.of_later (hfeed₁.trans hfeed) (hcounters₁.trans hcounters)
          rw [← hfeed₁] at ht hsize hiff
          split
          · next hb => exact Ends.mono (unclosed_fills h₁ (hiff.mp hb)) hagain
          · next hb =>
            refine Ends.mono (item_fills ih h₁ (Nat.le_of_lt_succ hsize) ht hcloses ?_) hagain
            intro hfinish
            exact hb (hiff.mpr hfinish)
        · intro e d₁ hlater₁ hfound
          obtain ⟨b, hb, -⟩ := hfound
          exact absurd hb (by simp)
    · intro e d' hseek
      exact run_between_of_seek_error hseek

/-! ## Requests -/

/-- Where the stream does not end, there is one more item. -/
theorem pageItem_performs {nodes : List Node} {t : Token}
    (h : Inside d o [⟨.stream, nodes.reverse⟩]) (hhead : d.feed.head = .ok t)
    (hne : t.lexeme ≠ .eof) :
    Performs o [⟨.stream, nodes.reverse⟩] (item .page nodes.isEmpty) d
      (run o (.between ⟨.stream, nodes.reverse⟩ []) d.feed) := by
  have hfresh : Frame.isFresh ⟨.stream, nodes.reverse⟩ = nodes.isEmpty := by
    simp [Frame.isFresh]
  rw [← hfresh]
  apply item_performs (sections_perform o d.feed.size) h (Nat.le_refl _)
  · intro ph rest hphrase
    rfl
  · intro eof hfinish
    have htidy := tidy_feed d
    rw [hfinish] at htidy hhead
    obtain rfl := Except.ok.inj hhead
    exact hne htidy.2

/-- **Streams** are read item after item up to their end. -/
theorem content_reads {d : Descent} {nodes : List Node}
    (h : Inside d o [⟨.stream, nodes.reverse⟩]) :
    Reads (content nodes) d (run o (.between ⟨.stream, nodes.reverse⟩ []) d.feed) := by
  rw [content]
  refine Reads.bind (peek_reads h.consistent) ?_ ?_
  · intro t d' hlater hlook hcounters
    obtain ⟨hhead, hfeed⟩ := Feed.look_eq_ok_iff.mp hlook
    have h' := h.later hlater hcounters
    split
    · next heof =>
      have hfinish : d.feed = .finish [] t := (tidy_feed d).anchored.eq_finish hhead heof
      refine Ends.pure hlater.consistent ⟨?_, hcounters⟩
      have hnode : Frame.node ⟨.stream, nodes.reverse⟩ = .ofChildren .content nodes := by
        simp [Frame.node]
      rw [hfeed, hfinish, run, finish, finishFrames.eq_def, ← hnode]
    · next heof =>
      rw [← hfeed] at hhead ⊢
      refine Ends.bind (pageItem_performs h' hhead heof) ?_ ?_
      · intro m d₂ hlater₂ hfound
        obtain ⟨hrun, hcounters₂, hsize₂⟩ := hfound
        have hless : d₂.feed.size < d.feed.size := by
          rwa [← hfeed]
        have hothers := content_reads (h'.pushed hlater₂ hcounters₂ m)
        rw [run_pushed, ← hrun] at hothers
        refine Ends.mono hothers ?_
        intro y d₃ hlater₃ hfound₃
        cases y with
        | ok n => exact ⟨hfound₃.1, hfound₃.2.trans (hcounters₂.trans hcounters)⟩
        | error e => exact hfound₃
      · intro e d₂ hlater₂ hrun
        exact hrun
  · intro e d' hlook
    obtain ⟨e', hhead, rfl, hfeed⟩ := Feed.look_eq_error_iff.mp hlook
    have hseek := Feed.seek_of_error hhead []
    rw [Feed.prepend_nil, Feed.prepend_nil, ← hfeed] at hseek
    exact run_between_of_seek_error hseek
termination_by d.feed.size

/-- Most productions are read as a part. -/
theorem exists_initial {p : Production} (hcontent : p ≠ .content)
    (hconstruction : p ≠ .pathConstruction) :
    ∃ part, Recognizer.start p = .within part [] ∧ part.Initial ∧ part.production = p := by
  by_cases hunknown : p = .unknownOperator
  · subst hunknown
    exact ⟨.undefined, rfl, Part.Initial.undefined, rfl⟩
  by_cases hgroup : p.isGroup = false
  · exact ⟨.single p, start_single hgroup hunknown, Part.Initial.single hgroup hunknown, rfl⟩
  · cases p with
    | pathObject => exact ⟨.path [] none, rfl, Part.Initial.path, rfl⟩
    | textObject => exact ⟨.opening .textObject, rfl, Part.Initial.opening _, rfl⟩
    | graphicsStateBlock => exact ⟨.opening .stateBlock, rfl, Part.Initial.opening _, rfl⟩
    | markedContent => exact ⟨.opening .markedContent, rfl, Part.Initial.opening _, rfl⟩
    | compatibility => exact ⟨.opening .compatibility, rfl, Part.Initial.opening _, rfl⟩
    | inlineImage => exact ⟨.image, rfl, Part.Initial.image, rfl⟩
    | content => exact absurd rfl hcontent
    | pathConstruction => exact absurd rfl hconstruction
    | _ => exact absurd rfl hgroup

/-- **Productions** are read by recursive descent as the recogniser reads them. -/
theorem node_reads (h : Inside d o []) (p : Production) :
    Reads (node .page p) d (Recognizer.read o p d.feed) := by
  by_cases hcontent : p = .content
  · subst hcontent
    rw [node]
    have h' : Inside d o [⟨.stream, [].reverse⟩] :=
      ⟨h.consistent, h.options, h.counters.trans (Frame.counters_stream [] []).symm⟩
    exact content_reads h'
  by_cases hconstruction : p = .pathConstruction
  · subst hconstruction
    rw [node]
    refine Ends.mono (construction_ends h []) ?_
    intro y d' hlater hfound
    cases y with
    | ok n => exact ⟨hfound.1, hfound.2.1⟩
    | error e => exact hfound.1
  obtain ⟨part, hstart, hinitial, hp⟩ := exists_initial hcontent hconstruction
  have hread : Recognizer.read o p d.feed = run o (.within part []) d.feed := by
    rw [Recognizer.read, if_neg hconstruction, hstart]
  have hnode := node_performs (sections_perform o d.feed.size) h (Nat.le_refl _) hinitial
  rw [hp] at hnode
  rw [hread]
  refine Ends.mono hnode ?_
  intro y d' hlater hfound
  cases y with
  | ok n => exact ⟨hfound.1, hfound.2.1⟩
  | error e => exact hfound

end Items

end Descent

end PageContent
