import PageContent.Proofs.OperandReading

/-! # Phrases and tokens

    A stream is read phrase by phrase, and the grammar is about tokens. This
    module goes from one to the other.

    * **Feeds of tokens**: a token list in front of a feed. Without faults the
      feed of a stream is that of its tokens.
    * **Proper phrases** have no operator among their pending tokens. Every token
      list falls into proper phrases and a rest without operators, in one way
      only.
    * **Calls**: a proper phrase is an invocation if and only if its tokens are
      a call of the grammar.
-/

namespace PageContent

open Grammar

/-! ## Feeds of tokens -/

namespace Feed

/-- One more token in front of a feed. -/
def cons (t : Token) (feed : Feed) : Feed :=
  match t.lexeme with
  | .operator keyword => .phrase ⟨[], keyword, t.span⟩ feed
  | _ => feed.prepend [t]

/-- Tokens in front of a feed. -/
def ofTokens (ts : List Token) (feed : Feed) : Feed :=
  ts.foldr cons feed

/-- Phrases in front of a feed. -/
def ofPhrases (phs : List Phrase) (feed : Feed) : Feed :=
  phs.foldr phrase feed

/-- The feed starts with a fault, after some tokens at most. -/
def IsFault : Feed → Prop
  | .phrase _ _ => False
  | .fault _ _ _ => True
  | .finish _ _ => False
  | .stuck _ _ => True

theorem isFault_prepend {feed : Feed} (h : feed.IsFault) (ts : List Token) :
    (feed.prepend ts).IsFault := by
  cases feed <;> exact h

theorem ofScan_token (t : Token) (rest : Scan) :
    ofScan (.token t rest) = cons t (ofScan rest) := by
  unfold cons
  cases hl : t.lexeme <;> simp [ofScan, hl]

theorem ofTokens_append (ts us : List Token) (feed : Feed) :
    ofTokens (ts ++ us) feed = ofTokens ts (ofTokens us feed) :=
  List.foldr_append

/-- The feed of a stream is that of its tokens, or there is a fault after some
    tokens. -/
theorem ofScan_ofLexer (l : Lexer) :
    (∃ ts eof, (Scan.ofLexer l).tokens = .ok (ts ++ [eof]) ∧ eof.lexeme = .eof ∧
      ofScan (.ofLexer l) = ofTokens ts (.finish [] eof)) ∨
    (∃ e ts feed, (Scan.ofLexer l).tokens = .error e ∧ feed.IsFault ∧
      ofScan (.ofLexer l) = ofTokens ts feed) := by
  fun_induction Scan.ofLexer l with
  | case1 l t l' hnext heof => exact .inl ⟨[], t, rfl, heof, rfl⟩
  | case2 l t l' hnext hne _ ih =>
    rw [ofScan_token]
    rcases ih with ⟨ts, eof, htokens, heof, hfeed⟩ | ⟨e, ts, feed, htokens, hfault, hfeed⟩
    · refine .inl ⟨t :: ts, eof, ?_, heof, ?_⟩
      · simp [Scan.tokens, htokens]
      · rw [hfeed]
        rfl
    · refine .inr ⟨e, t :: ts, feed, ?_, hfault, ?_⟩
      · simp [Scan.tokens, htokens]
      · rw [hfeed]
        rfl
  | case3 l e l' hnext hlt ih =>
    exact .inr ⟨e, [], .fault [] e (ofScan (.ofLexer l')), rfl, trivial, rfl⟩
  | case4 l e l' hnext hge => exact .inr ⟨e, [], .stuck [] e, rfl, trivial, rfl⟩

/-- The feed of a stream without faults. -/
theorem ofBytes_of_tokenize {bytes : List UInt8} {ts : List Token} {eof : Token}
    (h : tokenize bytes = .ok (ts ++ [eof])) :
    ofBytes bytes = ofTokens ts (.finish [] eof) := by
  rcases ofScan_ofLexer (Lexer.ofBytes bytes) with
    ⟨us, eof', htokens, -, hfeed⟩ | ⟨e, -, -, htokens, -⟩
  · have hlists : ts ++ [eof] = us ++ [eof'] := Except.ok.inj (h.symm.trans htokens)
    obtain ⟨rfl, heof⟩ := List.append_inj' hlists rfl
    obtain rfl := List.singleton_inj.mp heof
    exact hfeed
  · exact absurd (h.symm.trans htokens) (by simp)

end Feed

/-! ## Proper phrases -/

/-- No operator is among the tokens. -/
def NoOperator (ts : List Token) : Prop :=
  ∀ t ∈ ts, ∀ keyword, t.lexeme ≠ .operator keyword

namespace NoOperator

theorem nil : NoOperator [] := by
  intro t ht
  simp at ht

theorem append {ts us : List Token} (hts : NoOperator ts) (hus : NoOperator us) :
    NoOperator (ts ++ us) := by
  intro t ht
  rcases List.mem_append.mp ht with h | h
  · exact hts t h
  · exact hus t h

theorem of_append_left {ts us : List Token} (h : NoOperator (ts ++ us)) : NoOperator ts :=
  fun t ht => h t (List.mem_append_left us ht)

theorem cons {t : Token} {ts : List Token} (ht : ∀ keyword, t.lexeme ≠ .operator keyword)
    (hts : NoOperator ts) : NoOperator (t :: ts) := by
  intro u hu
  rcases List.mem_cons.mp hu with rfl | h
  · exact ht
  · exact hts u h

end NoOperator

/-- The first operator of a token list divides it in one way only. -/
theorem first_operator_unique {as bs cs ds : List Token} {a c : Token} {j k : String}
    (has : NoOperator as) (hcs : NoOperator cs) (ha : a.lexeme = .operator j)
    (hc : c.lexeme = .operator k) (h : as ++ a :: bs = cs ++ c :: ds) :
    as = cs ∧ a = c ∧ bs = ds := by
  -- a longer part in front would contain the operator of the shorter one
  induction as generalizing cs with
  | nil =>
    match cs with
    | [] => simpa using h
    | c' :: cs =>
      obtain ⟨rfl, -⟩ := List.cons.inj h
      exact absurd ha (hcs a (by simp) j)
  | cons a' as ih =>
    match cs with
    | [] =>
      obtain ⟨rfl, -⟩ := List.cons.inj h
      exact absurd hc (has a' (by simp) k)
    | c' :: cs =>
      obtain ⟨rfl, -⟩ := List.cons.inj h
      have has' : NoOperator as := fun t ht => has t (by simp [ht])
      have hcs' : NoOperator cs := fun t ht => hcs t (by simp [ht])
      obtain ⟨rfl, hrest⟩ := ih has' hcs' (List.cons.inj h).2
      exact ⟨rfl, hrest⟩

namespace Phrase

/-- The tokens of a phrase, its operator last. -/
def tokens (ph : Phrase) : List Token :=
  ph.pending ++ [ph.token]

/-- The phrase begins after the operator before. -/
def Proper (ph : Phrase) : Prop :=
  NoOperator ph.pending

theorem tokens_append (ph : Phrase) (ts : List Token) :
    ph.tokens ++ ts = ph.pending ++ ph.token :: ts := by
  simp [tokens]

theorem lexeme_token (ph : Phrase) : ph.token.lexeme = .operator ph.keyword :=
  rfl

end Phrase

namespace Feed

theorem ofTokens_pending {ts : List Token} (h : NoOperator ts) (feed : Feed) :
    ofTokens ts feed = feed.prepend ts := by
  induction ts with
  | nil => exact (prepend_nil feed).symm
  | cons t ts ih =>
    have ht := h t (by simp)
    have hts : NoOperator ts := fun u hu => h u (by simp [hu])
    -- a token that is no operator waits for the phrase after it
    show cons t (ofTokens ts feed) = _
    rw [ih hts]
    unfold cons
    split
    · next k hk => exact absurd hk (ht k)
    · exact prepend_prepend [t] ts feed

/-- The tokens of proper phrases are read as these phrases. -/
theorem ofTokens_phrases {phs : List Phrase} (h : ∀ ph ∈ phs, ph.Proper) (feed : Feed) :
    ofTokens (phs.flatMap Phrase.tokens) feed = ofPhrases phs feed := by
  induction phs with
  | nil => rfl
  | cons ph phs ih =>
    have hph : NoOperator ph.pending := h ph (by simp)
    rw [List.flatMap_cons, ofTokens_append, ih fun p hp => h p (by simp [hp]), Phrase.tokens,
      ofTokens_append, ofTokens_pending hph]
    show prepend ph.pending (cons ph.token (ofPhrases phs feed)) = phrase ph (ofPhrases phs feed)
    simp [cons, Phrase.token, prepend]

end Feed

/-- Every token list falls into proper phrases and a rest without operators. -/
theorem exists_phrases (ts : List Token) :
    ∃ (phs : List Phrase) (pending : List Token), ts = phs.flatMap Phrase.tokens ++ pending ∧
      (∀ ph ∈ phs, ph.Proper) ∧ NoOperator pending := by
  induction ts with
  | nil => exact ⟨[], [], rfl, by simp, NoOperator.nil⟩
  | cons t ts ih =>
    obtain ⟨phs, pending, rfl, hphs, hpending⟩ := ih
    by_cases ht : ∃ keyword, t.lexeme = .operator keyword
    · -- an operator is a phrase by itself
      obtain ⟨keyword, hk⟩ := ht
      refine ⟨⟨[], keyword, t.span⟩ :: phs, pending, ?_, ?_, hpending⟩
      · simp [Phrase.tokens, Phrase.token, ← hk]
      · intro ph hph
        rcases List.mem_cons.mp hph with rfl | h
        · exact NoOperator.nil
        · exact hphs ph h
    · -- any other token joins the first phrase, or the rest
      have ht' : ∀ keyword, t.lexeme ≠ .operator keyword := fun k hk => ht ⟨k, hk⟩
      match phs with
      | [] => exact ⟨[], t :: pending, rfl, by simp, NoOperator.cons ht' hpending⟩
      | ph :: phs =>
        refine ⟨{ ph with pending := t :: ph.pending } :: phs, pending, ?_, ?_, hpending⟩
        · simp [Phrase.tokens, Phrase.token]
        · intro p hp
          rcases List.mem_cons.mp hp with rfl | h
          · exact NoOperator.cons ht' (hphs ph (by simp))
          · exact hphs p (by simp [h])

/-! ## Operands of a call -/

mutual

theorem noOperator_of_isOperand {d : Nat} {ts : List Token} {x : Operand} {s : Span}
    (h : IsOperand d ts x s) : NoOperator ts := by
  match h with
  | @IsOperand.scalar _ t _ hx =>
    refine NoOperator.cons ?_ NoOperator.nil
    intro k hk
    have hdenotes := Lexeme.denotes_of_scalar? hx
    rw [hk] at hdenotes
    cases hdenotes
  | .array ho hxs hc =>
    have hmembers := noOperator_of_areOperands hxs
    refine NoOperator.append (NoOperator.cons ?_ hmembers) (NoOperator.cons ?_ NoOperator.nil)
    · simp [ho]
    · simp [hc]
  | .dictionary ho hes hc =>
    have hentries := noOperator_of_areEntries hes
    refine NoOperator.append (NoOperator.cons ?_ hentries) (NoOperator.cons ?_ NoOperator.nil)
    · simp [ho]
    · simp [hc]

theorem noOperator_of_areOperands {d : Nat} {ts : List Token} {xs : List (Operand × Span)}
    (h : AreOperands d ts xs) : NoOperator ts := by
  match h with
  | .nil => exact NoOperator.nil
  | .cons hx hxs =>
    have hfirst := noOperator_of_isOperand hx
    have hothers := noOperator_of_areOperands hxs
    exact hfirst.append hothers

theorem noOperator_of_areEntries {d : Nat} {ts : List Token} {es : List (String × Operand)}
    (h : AreEntries d ts es) : NoOperator ts := by
  match h with
  | .nil => exact NoOperator.nil
  | .cons hk hx hes =>
    have hvalue := noOperator_of_isOperand hx
    have hothers := noOperator_of_areEntries hes
    refine NoOperator.append (NoOperator.cons ?_ hvalue) hothers
    simp [hk]

end

/-! ## Checking operands -/

namespace Operator

theorem firstMismatch?_eq_none_iff {arity : Arity} {count index : Nat} {xs : List Operand} :
    firstMismatch? arity count index xs = none ↔
      ∀ i x demand, xs[i]? = some x → arity.demand? (index + i) count = some demand →
        demand.accepts x := by
  induction xs generalizing index with
  | nil => simp [firstMismatch?]
  | cons x xs ih =>
    -- the first operand, and those after it one place further
    have hcons : (∀ i y demand, (x :: xs)[i]? = some y →
        arity.demand? (index + i) count = some demand → demand.accepts y) ↔
        (∀ demand, arity.demand? index count = some demand → demand.accepts x) ∧
        (∀ i y demand, xs[i]? = some y → arity.demand? (index + 1 + i) count = some demand →
          demand.accepts y) := by
      constructor
      · intro h
        refine ⟨fun demand => h 0 x demand rfl, ?_⟩
        intro i y demand hy hd
        exact h (i + 1) y demand (by simpa using hy) (by rwa [← Nat.add_assoc, Nat.add_right_comm])
      · intro hparts i y demand hy hd
        rcases hparts with ⟨hx, hxs⟩
        match i with
        | 0 =>
          obtain rfl := Option.some.inj hy
          exact hx demand hd
        | i + 1 =>
          rw [← Nat.add_assoc, Nat.add_right_comm] at hd
          exact hxs i y demand (by simpa using hy) hd
    rw [hcons, ← ih, firstMismatch?]
    cases hdemand : arity.demand? index count with
    | none => simp
    | some demand =>
      by_cases haccepts : demand.accepts x = true
      · simp [haccepts]
      · simp [haccepts]

/-- The check lets through exactly the operands that the arity describes. -/
theorem check_eq_ok_iff {op : Operator} {xs : List Operand} {spans : List Span} {place : Span} :
    op.check xs spans place = .ok () ↔ op.arity.Fits xs := by
  have hnone := @firstMismatch?_eq_none_iff op.arity xs.length 0 xs
  simp only [Nat.zero_add] at hnone
  unfold check Arity.Fits
  by_cases hcount : op.arity.acceptsCount xs.length = true
  · simp only [hcount, if_true, true_and, ← hnone]
    cases firstMismatch? op.arity xs.length 0 xs with
    | none => simp
    | some m => simp
  · simp [hcount]

/-- An operand list of a wrong length is an arity error. -/
theorem check_of_wrong_count {op : Operator} {xs : List Operand} {spans : List Span}
    {place : Span} (h : op.arity.acceptsCount xs.length = false) :
    ∃ e, op.check xs spans place = .error e ∧ e.kind = .arity := by
  unfold check
  simp only [h, Bool.false_eq_true, if_false]
  exact ⟨_, rfl, rfl⟩

end Operator

/-! ## Phrases as calls -/

namespace Phrase

variable {limit : Nat} {ph : Phrase}

theorem operands_eq_ok_iff {xs : List (Operand × Span)} :
    ph.operands limit = .ok xs ↔ AreOperands (min limit deepestNesting) ph.pending xs := by
  rw [← OperandReader.run_start_eq_complete_iff]
  unfold operands
  cases OperandReader.start.run limit ph.pending <;> simp

theorem invoke_eq (p : Production) (category : Option Category) (xs : List (Operand × Span)) :
    ph.invoke p category xs =
      { production := p, keyword := ph.keyword, category, operands := xs.map (·.1),
        span := callSpan xs ph.place } := by
  unfold invoke
  cases xs <;> rfl

theorem invocation_eq_ok_iff {p : Production} {call : Invocation} :
    ph.invocation limit p = .ok call ↔
      ∃ op xs, ph.operator? = some op ∧ op.production = p ∧ ph.operands limit = .ok xs ∧
        op.arity.Fits (xs.map (·.1)) ∧ call = ph.invoke p (some op.category) xs := by
  unfold invocation
  cases hxs : ph.operands limit with
  | error f => simp
  | ok xs =>
    -- the operator must be known and have the production asked for
    cases hop : ph.operator?.filter (·.production = p) with
    | none =>
      simp only [Except.ok.injEq, reduceCtorEq, false_iff]
      intro hparts
      rcases hparts with ⟨op, ys, hop', hp, -⟩
      rw [hop'] at hop
      simp [hp] at hop
    | some op =>
      obtain ⟨hop', hp⟩ := Option.filter_eq_some_iff.mp hop
      have hcheck := @Operator.check_eq_ok_iff op (xs.map (·.1)) (xs.map (·.2)) ph.place
      cases hres : op.check (xs.map (·.1)) (xs.map (·.2)) ph.place with
      | error e =>
        simp only [hres, reduceCtorEq, false_iff] at hcheck
        simp only [hres, reduceCtorEq, false_iff]
        intro hparts
        rcases hparts with ⟨op', ys, hop'', -, hys, hfits, -⟩
        rw [hop', Option.some.injEq] at hop''
        rw [Except.ok.injEq] at hys
        subst hop'' hys
        exact hcheck hfits
      | ok u =>
        have hfits := hcheck.mp hres
        simp only [hres, Except.ok.injEq]
        constructor
        · intro heq
          subst heq
          exact ⟨op, xs, hop', by simpa using hp, rfl, hfits, rfl⟩
        · intro hparts
          rcases hparts with ⟨op', ys, hop'', -, rfl, -, rfl⟩
          rw [hop', Option.some.injEq] at hop''
          rw [hop'']

theorem undefinedInvocation_eq_ok_iff {call : Invocation} :
    ph.undefinedInvocation limit = .ok call ↔
      ∃ xs, ph.operands limit = .ok xs ∧ call = ph.invoke .unknownOperator none xs := by
  unfold undefinedInvocation
  cases hxs : ph.operands limit with
  | error f => simp
  | ok xs => simp [eq_comm]

/-- A proper phrase is an invocation if and only if its tokens are a call. -/
theorem isCall_iff (hph : ph.Proper) {op : Operator} {ts rest : List Token} {call : Invocation} :
    IsCall (min limit deepestNesting) op (ph.tokens ++ ts) rest call ↔
      rest = ts ∧ ph.operator? = some op ∧ ph.invocation limit op.production = .ok call := by
  rw [tokens_append]
  constructor
  · intro h
    generalize hus : ph.pending ++ ph.token :: ts = us at h
    cases h with
    | @mk pending _ t keyword xs hpending ht hop hfits =>
      obtain ⟨hp, htoken, rfl⟩ := first_operator_unique hph (noOperator_of_areOperands hpending)
        ph.lexeme_token ht hus
      subst hp htoken
      obtain rfl : ph.keyword = keyword := by simpa [lexeme_token] using ht
      refine ⟨rfl, hop, ?_⟩
      rw [invocation_eq_ok_iff]
      exact ⟨op, xs, hop, rfl, operands_eq_ok_iff.mpr hpending, hfits, (invoke_eq _ _ _).symm⟩
  · intro hparts
    rcases hparts with ⟨rfl, hop, hcall⟩
    obtain ⟨op', xs, hop', -, hxs, hfits, rfl⟩ := invocation_eq_ok_iff.mp hcall
    rw [hop, Option.some.injEq] at hop'
    subst hop'
    rw [invoke_eq]
    exact IsCall.mk (operands_eq_ok_iff.mp hxs) ph.lexeme_token hop hfits

/-- A proper phrase is an invocation of a production if and only if its tokens
    are a call of one of its operators. -/
theorem isCallOf_iff (hph : ph.Proper) {p : Production} {ts rest : List Token}
    {call : Invocation} :
    IsCallOf (min limit deepestNesting) p (ph.tokens ++ ts) rest call ↔
      rest = ts ∧ ph.invocation limit p = .ok call := by
  constructor
  · intro hparts
    rcases hparts with ⟨hcall, rfl⟩
    obtain ⟨hrest, -, hcall⟩ := (isCall_iff hph).mp hcall
    exact ⟨hrest, hcall⟩
  · intro hparts
    rcases hparts with ⟨rfl, hcall⟩
    obtain ⟨op, -, hop, rfl, -⟩ := invocation_eq_ok_iff.mp hcall
    exact IsCallOf.mk ((isCall_iff hph).mpr ⟨rfl, hop, hcall⟩) rfl

/-- A proper phrase of which nothing is known is an invocation if and only if its
    tokens are a call. -/
theorem isUncheckedCall_iff (hph : ph.Proper) {ts rest : List Token} {call : Invocation} :
    IsUncheckedCall (min limit deepestNesting) (ph.tokens ++ ts) rest call ↔
      rest = ts ∧ ph.undefinedInvocation limit = .ok call := by
  rw [tokens_append]
  constructor
  · intro h
    generalize hus : ph.pending ++ ph.token :: ts = us at h
    cases h with
    | @mk pending _ t keyword xs hpending ht =>
      obtain ⟨hp, htoken, rfl⟩ := first_operator_unique hph (noOperator_of_areOperands hpending)
        ph.lexeme_token ht hus
      subst hp htoken
      obtain rfl : ph.keyword = keyword := by simpa [lexeme_token] using ht
      refine ⟨rfl, ?_⟩
      rw [undefinedInvocation_eq_ok_iff]
      exact ⟨xs, operands_eq_ok_iff.mpr hpending, (invoke_eq _ _ _).symm⟩
  · intro hparts
    rcases hparts with ⟨rfl, hcall⟩
    obtain ⟨xs, hxs, rfl⟩ := undefinedInvocation_eq_ok_iff.mp hcall
    rw [invoke_eq]
    exact IsUncheckedCall.mk (operands_eq_ok_iff.mp hxs) ph.lexeme_token

/-- An invocation of which nothing is known has the keyword of its phrase. -/
theorem keyword_of_undefinedInvocation {call : Invocation}
    (h : ph.undefinedInvocation limit = .ok call) : call.keyword = ph.keyword := by
  obtain ⟨xs, -, rfl⟩ := undefinedInvocation_eq_ok_iff.mp h
  rfl

end Phrase

/-- Without an operator there is no call. -/
theorem not_isCall_of_noOperator {d : Nat} {op : Operator} {ts rest : List Token}
    {call : Invocation} (h : NoOperator ts) : ¬ IsCall d op ts rest call := by
  intro hcall
  cases hcall with
  | mk hpending ht hop hfits => exact h _ (by simp) _ ht

theorem not_isCallOf_of_noOperator {d : Nat} {p : Production} {ts rest : List Token}
    {call : Invocation} (h : NoOperator ts) : ¬ IsCallOf d p ts rest call := by
  intro hparts
  rcases hparts with ⟨hcall, -⟩
  exact not_isCall_of_noOperator h hcall

theorem not_isUncheckedCall_of_noOperator {d : Nat} {ts rest : List Token}
    {call : Invocation} (h : NoOperator ts) : ¬ IsUncheckedCall d ts rest call := by
  intro hcall
  cases hcall with
  | mk hpending ht => exact h _ (by simp) _ ht

end PageContent
