import PageContent.Proofs.Recognition

/-! # Single productions and whole streams

    A stream can be read as one production, or as content. Both agree where the
    production is one of the items of a page.

    * **Anchoring**: the end of the stream is met at the end only, so that a
      production that reaches it has used every token.
    * **Productions on their own**: some bytes are a production if and only if
      they have no lexical fault and their tokens are what the production asks.
    * **Items of a page**: what such a production asks of the tokens is that they
      are an item of that production. As content they are the only item then.
-/

namespace PageContent

open Grammar

/-! ## Anchoring -/

namespace Feed

/-- The end of the stream is not among the tokens before it. -/
def Anchored : Feed → Prop
  | .phrase p rest => (∀ t ∈ p.pending, t.lexeme ≠ .eof) ∧ rest.Anchored
  | .fault pending _ rest => (∀ t ∈ pending, t.lexeme ≠ .eof) ∧ rest.Anchored
  | .finish pending _ => ∀ t ∈ pending, t.lexeme ≠ .eof
  | .stuck pending _ => ∀ t ∈ pending, t.lexeme ≠ .eof

theorem Anchored.cons {t : Token} {feed : Feed} (ht : t.lexeme ≠ .eof) (h : feed.Anchored) :
    (cons t feed).Anchored := by
  have hprepend : (feed.prepend [t]).Anchored := by
    cases feed with
    | phrase p rest => exact ⟨List.forall_mem_cons.mpr ⟨ht, h.1⟩, h.2⟩
    | fault pending e rest => exact ⟨List.forall_mem_cons.mpr ⟨ht, h.1⟩, h.2⟩
    | finish pending eof => exact List.forall_mem_cons.mpr ⟨ht, h⟩
    | stuck pending e => exact List.forall_mem_cons.mpr ⟨ht, h⟩
  unfold Feed.cons
  split
  · exact ⟨by simp, h⟩
  · exact hprepend

theorem anchored_ofLexer (l : Lexer) : (ofScan (.ofLexer l)).Anchored := by
  fun_induction Scan.ofLexer l with
  | case1 l t l' hnext heof => exact List.forall_mem_nil _
  | case2 l t l' hnext hne _ ih =>
    rw [ofScan_token]
    exact ih.cons hne
  | case3 l e l' hnext hlt ih => exact ⟨List.forall_mem_nil _, ih⟩
  | case4 l e l' hnext hge => exact List.forall_mem_nil _

/-- Where the end of the stream comes next, nothing else is left. -/
theorem Anchored.eq_finish {feed : Feed} (h : feed.Anchored) {t : Token}
    (hhead : feed.head = .ok t) (ht : t.lexeme = .eof) : feed = .finish [] t := by
  match feed with
  | .phrase ⟨[], keyword, place⟩ rest =>
    obtain rfl := Except.ok.inj hhead
    exact absurd ht (by simp)
  | .phrase ⟨u :: us, keyword, place⟩ rest =>
    obtain rfl := Except.ok.inj hhead
    exact absurd ht (h.1 u (by simp))
  | .fault [] e rest => exact absurd hhead (by simp [head])
  | .fault (u :: us) e rest =>
    obtain rfl := Except.ok.inj hhead
    exact absurd ht (h.1 u (by simp))
  | .finish [] eof =>
    obtain rfl := Except.ok.inj hhead
    rfl
  | .finish (u :: us) eof =>
    obtain rfl := Except.ok.inj hhead
    exact absurd ht (h u (by simp))
  | .stuck [] e => exact absurd hhead (by simp [head])
  | .stuck (u :: us) e =>
    obtain rfl := Except.ok.inj hhead
    exact absurd ht (h u (by simp))

/-- Tokens in front of a feed are not its end. -/
theorem ofTokens_eq_finish {ts : List Token} {feed : Feed} {eof : Token}
    (h : ofTokens ts feed = .finish [] eof) : ts = [] := by
  cases ts with
  | nil => rfl
  | cons t ts =>
    have hcons : cons t (ofTokens ts feed) = .finish [] eof := h
    unfold cons at hcons
    split at hcons
    · exact absurd hcons (by simp)
    · cases hrest : ofTokens ts feed <;> simp [hrest, prepend] at hcons

end Feed

namespace Recognizer

variable {o : Options} {n : Node} {left : Feed}

theorem expectEnd_eq_ok_iff {feed : Feed} :
    expectEnd feed = .ok () ↔ ∃ t, feed.head = .ok t ∧ t.lexeme = .eof := by
  unfold expectEnd
  cases feed.head with
  | error e => simp
  | ok t =>
    by_cases ht : t.lexeme = .eof
    · simp [ht]
    · simp [ht]

/-- What a run leaves of a feed that is anchored is anchored. -/
theorem anchored_of_run {state : RecognizerState} {feed : Feed} (h : feed.Anchored)
    (hrun : run o state feed = .ok (n, left)) : left.Anchored := by
  fun_induction run o state feed with
  | case1 state ph rest state' hstep ih => exact ih h.2 hrun
  | case2 state ph rest m hstep =>
    obtain ⟨-, rfl⟩ := Prod.mk.inj (Except.ok.inj hrun)
    exact h.2
  | case4 state pending eof m hfinish =>
    obtain ⟨-, rfl⟩ := Prod.mk.inj (Except.ok.inj hrun)
    exact List.forall_mem_nil _
  | _ => exact absurd hrun (by simp)

/-- A run that is successful on a feed with a fault stops before the fault. -/
theorem exists_phrases_of_run {feed : Feed} (hfeed : feed.IsFault) {phs : List Phrase}
    {state : RecognizerState} (h : run o state (Feed.ofPhrases phs feed) = .ok (n, left)) :
    ∃ phs', left = Feed.ofPhrases phs' feed := by
  induction phs generalizing state with
  | nil =>
    have hfault : run o state feed = .ok (n, left) := h
    cases feed with
    | phrase p rest => exact absurd hfeed (by simp [Feed.IsFault])
    | finish pending eof => exact absurd hfeed (by simp [Feed.IsFault])
    | fault pending e rest =>
      unfold run at hfault
      split at hfault <;> exact absurd hfault (by simp)
    | stuck pending e =>
      unfold run at hfault
      split at hfault <;> exact absurd hfault (by simp)
  | cons ph phs ih =>
    have hphrase : run o state (.phrase ph (Feed.ofPhrases phs feed)) = .ok (n, left) := h
    unfold run at hphrase
    split at hphrase
    · exact ih hphrase
    · obtain ⟨-, rfl⟩ := Prod.mk.inj (Except.ok.inj hphrase)
      exact ⟨phs, rfl⟩
    · exact absurd hphrase (by simp)

/-- A run that reaches the end of a stream has used all its tokens, and there is no
    fault among them. -/
theorem exists_tokens_of_run {state : RecognizerState} {bytes : List UInt8} {t : Token}
    (h : run o state (Feed.ofBytes bytes) = .ok (n, .finish [] t)) :
    ∃ ts, tokenize bytes = .ok (ts ++ [t]) ∧ state.Demands o ts [] n := by
  rcases Feed.ofScan_ofLexer (Lexer.ofBytes bytes) with
    ⟨ts, eof, htokens, -, hfeed⟩ | ⟨-, ts, feed, -, hfault, hfeed⟩
  · rw [show Feed.ofBytes bytes = Feed.ofTokens ts (.finish [] eof) from hfeed] at h
    obtain ⟨rest, hdemands, hleft⟩ := (run_eq_ok_iff _).mp h
    obtain rfl := Feed.ofTokens_eq_finish hleft.symm
    obtain ⟨-, rfl⟩ := Feed.finish.inj hleft
    exact ⟨ts, htokens, hdemands⟩
  · -- no phrases in front of a fault are the end of the stream
    obtain ⟨phs, pending, rfl, hphs, hpending⟩ := exists_phrases ts
    rw [show Feed.ofBytes bytes = _ from hfeed, Feed.ofTokens_append,
      Feed.ofTokens_pending hpending, Feed.ofTokens_phrases hphs] at h
    have hprepend := Feed.isFault_prepend hfault pending
    obtain ⟨phs', hleft⟩ := exists_phrases_of_run hprepend h
    cases phs' with
    | cons ph phs' => exact absurd hleft (by simp [Feed.ofPhrases])
    | nil =>
      rw [show Feed.ofPhrases [] (feed.prepend pending) = feed.prepend pending from rfl] at hleft
      rw [← hleft] at hprepend
      exact hprepend.elim

end Recognizer

/-! ## Productions on their own -/

/-- **Single productions**: some bytes are a production if and only if they have no
    lexical fault and all their tokens are what the production asks. -/
theorem Node.parseAs_eq_ok_iff_demands {p : Production} (hp : p ≠ .pathConstruction)
    {bytes : List UInt8} {n : Node} :
    Node.parseAs p bytes = .ok n ↔
      ∃ ts eof, tokenize bytes = .ok (ts ++ [eof]) ∧ eof.lexeme = .eof ∧
        (Recognizer.start p).Demands Profile.default.options ts [] n := by
  have hread : ∀ feed, Recognizer.read Profile.default.options p feed =
      Recognizer.run Profile.default.options (Recognizer.start p) feed := by
    intro feed
    exact if_neg hp
  unfold Node.parseAs Recognizer.readAll
  rw [hread]
  constructor
  · intro h
    cases hrun : Recognizer.run Profile.default.options (Recognizer.start p)
        (Feed.ofBytes bytes) with
    | error e => simp [hrun] at h
    | ok r =>
      obtain ⟨m, left⟩ := r
      cases hend : Recognizer.expectEnd left with
      | error e => simp [hrun, hend] at h
      | ok u =>
        -- the end of the stream is next, so it is all that is left
        obtain ⟨t, hhead, ht⟩ := Recognizer.expectEnd_eq_ok_iff.mp hend
        have hanchored := Recognizer.anchored_of_run
          (Feed.anchored_ofLexer (Lexer.ofBytes bytes)) hrun
        obtain rfl := hanchored.eq_finish hhead ht
        obtain rfl : m = n := by simpa [hrun, hend] using h
        obtain ⟨ts, htokens, hdemands⟩ := Recognizer.exists_tokens_of_run hrun
        exact ⟨ts, t, htokens, ht, hdemands⟩
  · intro hparts
    obtain ⟨ts, eof, htokens, heof, hdemands⟩ := hparts
    have hrun : Recognizer.run Profile.default.options (Recognizer.start p)
        (Feed.ofTokens ts (.finish [] eof)) = .ok (n, .finish [] eof) :=
      (Recognizer.run_eq_ok_iff (Recognizer.start p)).mpr ⟨[], hdemands, rfl⟩
    have hend : Recognizer.expectEnd (.finish [] eof) = .ok () :=
      Recognizer.expectEnd_eq_ok_iff.mpr ⟨eof, rfl, heof⟩
    rw [Feed.ofBytes_of_tokenize htokens]
    simp only [hrun, hend]

/-! ## Items of a page -/

namespace Production

/-- The productions of the items that may stand at page level. Undefined operators are
    not among them, as they need a section around them. -/
def pageItems : List Production :=
  [.pathObject, .textObject, .graphicsStateBlock, .markedContent, .compatibility, .inlineImage,
    .concatMatrix, .shading, .dObject, .markedContentPoint, .glyphWidth,
    .glyphWidthBoundingBox] ++
  (Operator.catalog.filter fun op => op.category = .generalGraphicsState ∨
    op.category = .color ∨ op.category = .textState).map (·.production)

end Production

namespace Recognizer

variable {o : Options} {ts rest : List Token} {n : Node}

/-- A production that is no group is read as a single operator. -/
theorem start_single {p : Production} (hgroup : p.isGroup = false) (hp : p ≠ .unknownOperator) :
    start p = .within (.single p) [] := by
  cases p with
  | content | pathObject | pathConstruction | textObject | graphicsStateBlock | markedContent
  | compatibility | inlineImage => exact absurd hgroup (by decide)
  | unknownOperator => exact absurd rfl hp
  | _ => rfl

/-- A call is one of an operator of the catalog. -/
theorem operator_of_isCall {d : Nat} {op : Operator} {call : Invocation}
    (h : IsCall d op ts rest call) :
    op ∈ Operator.catalog ∧ call.production = op.production ∧ call.keyword = op.keyword := by
  cases h with
  | mk hpending ht hop hfits =>
    exact ⟨Operator.mem_catalog_of_lookup? hop, rfl, (Operator.keyword_of_lookup? hop).symm⟩

/-- No operator of the catalog is a group. -/
theorem isGroup_of_mem_catalog {op : Operator} (hop : op ∈ Operator.catalog) :
    op.production.isGroup = false ∧ op.production ≠ .unknownOperator := by
  have hall : ∀ op ∈ Operator.catalog, op.production.isGroup = false ∧
      op.production ≠ .unknownOperator := by decide +kernel
  exact hall op hop

/-- A part that stands in nothing is all that is asked. -/
theorem demands_part_iff {part : Part} :
    (RecognizerState.within part []).Demands o ts rest n ↔
      IsPart o (Setting.outermost o) part ts rest n := by
  constructor
  · intro h
    obtain ⟨us, item, hpart, hres⟩ := h
    obtain ⟨rfl, rfl⟩ := resumes_nil_iff.mp hres
    exact hpart
  · intro hpart
    exact ⟨rest, n, hpart, Resumes.done⟩

/-- An item of a page is what its production asks. -/
theorem demands_of_isItem (h : IsItem o (Setting.outermost o) true ts rest n) :
    (start n.production).Demands o ts rest n := by
  cases h with
  | @single _ _ op _ _ call hcall hop =>
    obtain ⟨hmem, hproduction, -⟩ := operator_of_isCall hcall
    obtain ⟨hgroup, hunknown⟩ := isGroup_of_mem_catalog hmem
    rw [show (Node.invocation call).production = op.production from hproduction,
      start_single hgroup hunknown, demands_part_iff]
    exact IsPart.single (IsCallOf.mk hcall rfl)
  | undefined hcall hop hw ho => exact absurd hw (by simp [Setting.outermost])
  | path hdrawn hne hclip hpaint hw =>
    apply demands_part_iff.mpr
    exact @IsPart.path _ _ [] _ _ _ _ _ _ _ hdrawn hne hclip hpaint
  | image hbegin hdata hfin hw => exact demands_part_iff.mpr (IsPart.image hbegin hdata hfin)
  | @closed _ _ s _ _ _ _ opening closing ns hw hopening hns hclosing =>
    have hpart := demands_part_iff.mpr (IsPart.closed hw.1 hopening hns hclosing)
    cases s <;> exact hpart
  | unclosed ho hw hopening hns =>
    exact demands_part_iff.mpr (IsPart.unclosed ho hw.1 hopening hns)

/-- A section that is asked for at page level is an item. -/
theorem isItem_of_section {s : Section}
    (h : IsPart o (Setting.outermost o) (.opening s) ts rest n) :
    IsItem o (Setting.outermost o) true ts rest n ∧ n.production = s.production := by
  cases h with
  | closed hroom hopening hns hclosing =>
    exact ⟨IsItem.closed ⟨hroom, fun _ => rfl⟩ hopening hns hclosing, rfl⟩
  | unclosed ho hroom hopening hns =>
    exact ⟨IsItem.unclosed ho ⟨hroom, fun _ => rfl⟩ hopening hns, rfl⟩

/-- The operators of a page item that is no group are items by themselves. -/
theorem isSingle_of_pageItem {op : Operator} (hop : op ∈ Operator.catalog)
    (hp : op.production ∈ Production.pageItems) : isSingle .page true op = true := by
  have hall : ∀ op ∈ Operator.catalog, op.production ∈ Production.pageItems →
      isSingle .page true op = true := by decide +kernel
  exact hall op hop hp

/-- An operator that is asked for by the production of a page item is that item. -/
theorem isItem_of_single {p : Production} (hp : p ∈ Production.pageItems)
    (h : IsPart o (Setting.outermost o) (.single p) ts rest n) :
    IsItem o (Setting.outermost o) true ts rest n ∧ n.production = p := by
  cases h with
  | single hcallOf =>
    obtain ⟨hcall, rfl⟩ := hcallOf
    obtain ⟨hmem, hproduction, -⟩ := operator_of_isCall hcall
    exact ⟨IsItem.single hcall (isSingle_of_pageItem hmem hp), hproduction⟩

/-- What the production of a page item asks is an item of that production. -/
theorem isItem_of_demands {p : Production} (hp : p ∈ Production.pageItems)
    (h : (start p).Demands o ts rest n) :
    IsItem o (Setting.outermost o) true ts rest n ∧ n.production = p := by
  have hkinds : ∀ p ∈ Production.pageItems, p = .pathObject ∨ p = .inlineImage ∨
      p ∈ [Section.textObject, .stateBlock, .markedContent, .compatibility].map
        Section.production ∨ (p.isGroup = false ∧ p ≠ .unknownOperator) := by
    decide +kernel
  rcases hkinds p hp with rfl | rfl | hsection | ⟨hgroup, hunknown⟩
  · -- a path of which nothing has been drawn
    cases demands_part_iff.mp h with
    | path hmore hne hclip hpaint => exact ⟨IsItem.path hmore hne hclip hpaint rfl, rfl⟩
  · cases demands_part_iff.mp h with
    | image hbegin hdata hfin => exact ⟨IsItem.image hbegin hdata hfin rfl, rfl⟩
  · obtain ⟨s, -, rfl⟩ := List.mem_map.mp hsection
    have hpart : IsPart o (Setting.outermost o) (.opening s) ts rest n := by
      cases s <;> exact demands_part_iff.mp h
    exact isItem_of_section hpart
  · rw [start_single hgroup hunknown] at h
    exact isItem_of_single hp (demands_part_iff.mp h)

end Recognizer

/-! ## Agreement -/

/-- A content stream with one child is an item of a page. -/
theorem Grammar.isContent_singleton_iff {o : Options} {ts : List Token} {root n : Node} :
    IsContent o ts root ∧ root.children = [n] ↔
      IsItem o (Setting.outermost o) true ts [] n ∧ root = .ofChildren .content [n] := by
  constructor
  · intro hparts
    obtain ⟨⟨ns, hns, rfl⟩, hchildren⟩ := hparts
    obtain rfl : ns = [n] := hchildren
    cases hns with
    | cons hn hns =>
      cases hns with
      | nil => exact ⟨hn, rfl⟩
  · intro hparts
    obtain ⟨hn, rfl⟩ := hparts
    exact ⟨⟨[n], AreItems.cons hn AreItems.nil, rfl⟩, rfl⟩

/-- **Fragments**: reading some bytes as the production of a page item succeeds if and only
    if they are a content stream whose only child is of that production, and that child
    is found. Reading them as content is reading the stream. -/
theorem Node.parseAs_iff_parse (bytes : List UInt8) :
    (∀ p ∈ Production.pageItems, ∀ n, Node.parseAs p bytes = .ok n ↔
      ∃ s, ContentStream.parse Profile.default.options bytes = .ok s ∧ s.children = [n] ∧
        n.production = p) ∧
    (∀ root, Node.parseAs .content bytes = .ok root ↔
      ∃ s, ContentStream.parse Profile.default.options bytes = .ok s ∧ s.root = root) := by
  constructor
  · intro p hp n
    have hconstruction : p ≠ .pathConstruction := by
      rintro rfl
      exact absurd hp (by decide +kernel)
    rw [Node.parseAs_eq_ok_iff_demands hconstruction]
    constructor
    · intro hparts
      obtain ⟨ts, eof, htokens, heof, hdemands⟩ := hparts
      obtain ⟨hitem, hproduction⟩ := Recognizer.isItem_of_demands hp hdemands
      obtain ⟨hcontent, hchildren⟩ := Grammar.isContent_singleton_iff.mpr ⟨hitem, rfl⟩
      exact ⟨⟨_⟩, (ContentStream.parse_iff_of_tokenize htokens).mpr hcontent, hchildren,
        hproduction⟩
    · intro hparts
      obtain ⟨s, hparse, hchildren, rfl⟩ := hparts
      obtain ⟨ts, eof, htokens, heof⟩ := ContentStream.exists_tokens_of_parse hparse
      have hcontent := (ContentStream.parse_iff_of_tokenize htokens).mp hparse
      obtain ⟨hitem, -⟩ := Grammar.isContent_singleton_iff.mp ⟨hcontent, hchildren⟩
      exact ⟨ts, eof, htokens, heof, Recognizer.demands_of_isItem hitem⟩
  · intro root
    rw [Node.parseAs_eq_ok_iff_demands (by decide)]
    constructor
    · intro hparts
      obtain ⟨ts, eof, htokens, heof, hdemands⟩ := hparts
      exact ⟨⟨root⟩, (ContentStream.parse_iff_of_tokenize htokens).mpr
        (Recognizer.demands_start_iff.mp hdemands), rfl⟩
    · intro hparts
      obtain ⟨s, hparse, rfl⟩ := hparts
      obtain ⟨ts, eof, htokens, heof⟩ := ContentStream.exists_tokens_of_parse hparse
      have hcontent := (ContentStream.parse_iff_of_tokenize htokens).mp hparse
      exact ⟨ts, eof, htokens, heof, Recognizer.demands_start_iff.mpr hcontent⟩

end PageContent
