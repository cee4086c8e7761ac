import PageContent.Proofs.Failures
import PageContent.Proofs.Locations

/-! # What errors are about

    An error that is not lexical is about tokens that have been read.

    * **Grammar errors** cover some tokens in a row.
    * **Arity errors** cover the operands of an operator, all that there are, and the
      operator. They count these operands.
    * **Type errors** cover one of the operands of an operator. They tell which one.
    * **Runs**: the error of a run is the first fault of its feed, or it is about tokens
      in front of that fault.
-/

namespace PageContent

open Grammar

/-- The last of the tokens, if there is one, is an operator. -/
def EndsPhrase (ts : List Token) : Prop :=
  ∀ t ∈ ts.getLast?, ∃ keyword, t.lexeme = .operator keyword

theorem endsPhrase_nil : EndsPhrase [] := by
  intro t ht
  exact absurd ht (by simp)

theorem endsPhrase_append_tokens (before : List Token) (ph : Phrase) :
    EndsPhrase (before ++ ph.tokens) := by
  intro t ht
  rw [Phrase.tokens, ← List.append_assoc, List.getLast?_concat] at ht
  exact ⟨ph.keyword, (Option.mem_some.mp ht) ▸ rfl⟩

/-- `e.LiesIn ts`: the error is about some of the tokens. -/
inductive ParseError.LiesIn : ParseError → List Token → Prop
  /-- From the start of a token to the end of the same or of a later one. -/
  | grammar {before seg after : List Token} {s : Span} (hs : s.Covers seg)
      (expected : Expectation) (found : Finding) :
      LiesIn (.grammar s expected found) (before ++ (seg ++ after))
  /-- From the first operand of an operator to the end of the operator. Counted are the
      operands `xs`, all that come after the operator before. -/
  | arity {d : Nat} {before pending after : List Token} {t : Token} {keyword : String}
      {op : Operator} {xs : List (Operand × Span)} {s : Span}
      (hbefore : EndsPhrase before) (hxs : AreOperands d pending xs)
      (ht : t.lexeme = .operator keyword) (hop : Operator.lookup? keyword = some op)
      (hs : s.Covers (pending ++ [t])) (hcount : op.arity.acceptsCount xs.length = false) :
      LiesIn (.arity s keyword op.arity xs.length) (before ++ (pending ++ [t] ++ after))
  /-- The tokens of one operand of an operator. Its index is the number of the operands
      `xs` before it; `ys` come after it. -/
  | type {d : Nat} {before pre mid post after : List Token} {t : Token} {keyword : String}
      {op : Operator} {xs ys : List (Operand × Span)} {x : Operand} {s : Span} {demand : Demand}
      (hbefore : EndsPhrase before) (hxs : AreOperands d pre xs) (hx : IsOperand d mid x s)
      (hys : AreOperands d post ys) (ht : t.lexeme = .operator keyword)
      (hop : Operator.lookup? keyword = some op) (hs : s.Covers mid)
      (hdemand : op.arity.demand? xs.length (xs ++ (x, s) :: ys).length = some demand)
      (hrefused : demand.accepts x = false) :
      LiesIn (.type s keyword xs.length demand x.kind)
        (before ++ (pre ++ (mid ++ post) ++ [t] ++ after))

namespace ParseError

variable {e : ParseError} {ts : List Token}

theorem IsAt.liesIn {t : Token} (h : e.IsAt t) (ht : t ∈ ts) : e.LiesIn ts := by
  obtain ⟨expected, found, rfl⟩ := h
  obtain ⟨before, after, rfl⟩ := List.append_of_mem ht
  exact LiesIn.grammar (Span.Covers.token t) expected found

namespace LiesIn

theorem kind_ne (h : e.LiesIn ts) : e.kind ≠ .lexical := by
  cases h <;> simp [kind]

/-- Wherever an error is not lexical, it goes from the start of a token to the end of
    this token or of a later one. -/
theorem exists_covers (h : e.LiesIn ts) :
    ∃ before seg after, ts = before ++ (seg ++ after) ∧ e.span.Covers seg := by
  cases h with
  | grammar hs => exact ⟨_, _, _, rfl, hs⟩
  | arity hbefore hxs ht hop hs hcount => exact ⟨_, _, _, rfl, hs⟩
  | @type d before pre mid post after t keyword op xs ys x s demand hbefore hxs hx hys ht hop hs =>
    exact ⟨before ++ pre, mid, post ++ [t] ++ after, by simp, hs⟩

/-- It ends where one of the tokens ends. -/
theorem exists_stop (h : e.LiesIn ts) : ∃ t ∈ ts, t.span.stop = e.span.stop := by
  obtain ⟨before, seg, after, rfl, hs⟩ := h.exists_covers
  obtain ⟨-, -, last, hlast, -, hstop⟩ := hs.exists_mem
  exact ⟨last, List.mem_append_right before (List.mem_append_left after hlast), hstop.symm⟩

end LiesIn

end ParseError

/-! ## Phrases -/

namespace Grammar

/-- Each of some operands has its tokens, between those of the operands around it. -/
theorem exists_of_areOperands_append {d : Nat} {ts : List Token} {x : Operand} {s : Span}
    {xs ys : List (Operand × Span)} (h : AreOperands d ts (xs ++ (x, s) :: ys)) :
    ∃ pre mid post, ts = pre ++ (mid ++ post) ∧ AreOperands d pre xs ∧ IsOperand d mid x s ∧
      AreOperands d post ys := by
  induction xs generalizing ts with
  | nil =>
    cases h with
    | cons hx hys => exact ⟨[], _, _, rfl, AreOperands.nil, hx, hys⟩
  | cons y xs ih =>
    cases h with
    | cons hy hothers =>
      obtain ⟨pre, mid, post, rfl, hxs, hx, hys⟩ := ih hothers
      exact ⟨_ ++ pre, mid, post, by simp, AreOperands.cons hy hxs, hx, hys⟩

end Grammar

/-- **Phrases** that fail do so with an error about their tokens. -/
theorem Phrase.Refusal.liesIn {limit : Nat} {ph : Phrase} {f : Failure}
    (h : ph.Refusal limit f) {before after : List Token} (hbefore : EndsPhrase before)
    (hts : InOrder (before ++ (ph.tokens ++ after))) :
    f.error.LiesIn (before ++ (ph.tokens ++ after)) := by
  have hph : InOrder (ph.pending ++ [ph.token]) := hts.right.left
  cases h with
  | token hrun =>
    obtain ⟨pre, t, post, hpending, hat, -⟩ := OperandReader.exists_of_run_refused hrun
    exact hat.liesIn (by simp [tokens, hpending])
  | operator expected =>
    exact (ParseError.isAt_misplaced ph.token expected).liesIn (by simp [tokens])
  | arity hop hxs hcount =>
    have hareOperands := operands_eq_ok_iff.mp hxs
    exact .arity hbefore hareOperands ph.lexeme_token hop (covers_callSpan hph hareOperands) hcount
  | @type op xs index x s demand hop hxs hx hdemand hrefused =>
    -- the operands before the one at `index`, and those after it
    obtain ⟨hlt, hget⟩ := List.getElem?_eq_some_iff.mp hx
    obtain ⟨us, vs, rfl, rfl⟩ : ∃ us vs, xs = us ++ (x, s) :: vs ∧ us.length = index :=
      ⟨xs.take index, xs.drop (index + 1), by simp [← hget],
        List.length_take_of_le (Nat.le_of_lt hlt)⟩
    obtain ⟨pre, mid, post, hpending, hus, hmid, hvs⟩ :=
      exists_of_areOperands_append (operands_eq_ok_iff.mp hxs)
    have hmidOrder : InOrder mid := (hpending ▸ hph.left).right.left
    rw [tokens, hpending]
    exact .type hbefore hus hmid hvs ph.lexeme_token hop (covers_of_isOperand hmidOrder hmid)
      hdemand hrefused
  | nesting hxs hat =>
    obtain ⟨expected, found, rfl⟩ := hat
    exact .grammar (covers_callSpan hph (operands_eq_ok_iff.mp hxs)) expected found

/-! ## Feeds -/

namespace Feed

/-- The tokens in front of the first fault. -/
def tokens : Feed → List Token
  | .phrase p rest => p.tokens ++ rest.tokens
  | .fault pending _ _ => pending
  | .finish pending eof => pending ++ [eof]
  | .stuck pending _ => pending

/-- The first fault. -/
def fault? : Feed → Option LexicalError
  | .phrase _ rest => rest.fault?
  | .fault _ e _ => some e
  | .finish _ _ => none
  | .stuck _ e => some e

theorem tokens_prepend (ts : List Token) (feed : Feed) :
    (feed.prepend ts).tokens = ts ++ feed.tokens := by
  cases feed <;> simp [prepend, tokens, Phrase.tokens, Phrase.token]

theorem fault?_prepend (ts : List Token) (feed : Feed) :
    (feed.prepend ts).fault? = feed.fault? := by
  cases feed <;> rfl

theorem tokens_cons (t : Token) (feed : Feed) : (cons t feed).tokens = t :: feed.tokens := by
  obtain ⟨lexeme, span⟩ := t
  unfold cons
  split
  · next keyword hkeyword =>
    dsimp only at hkeyword
    subst hkeyword
    rfl
  · exact tokens_prepend [_] feed

theorem fault?_cons (t : Token) (feed : Feed) : (cons t feed).fault? = feed.fault? := by
  unfold cons
  split
  · rfl
  · exact fault?_prepend [t] feed

theorem tokens_ofTokens (ts : List Token) (feed : Feed) :
    (ofTokens ts feed).tokens = ts ++ feed.tokens := by
  induction ts with
  | nil => rfl
  | cons t ts ih => exact (tokens_cons t _).trans (congrArg (t :: ·) ih)

theorem fault?_ofTokens (ts : List Token) (feed : Feed) :
    (ofTokens ts feed).fault? = feed.fault? := by
  induction ts with
  | nil => rfl
  | cons t ts ih => exact (fault?_cons t _).trans ih

/-- What comes next is one of the tokens, or the first fault. -/
theorem head_cases (feed : Feed) :
    (∃ t ∈ feed.tokens, feed.head = .ok t) ∨
      ∃ e, feed.fault? = some e ∧ feed.head = .error e := by
  have hphrase (ph : Phrase) (rest : Feed) :
      ∃ t ∈ (Feed.phrase ph rest).tokens, (Feed.phrase ph rest).head = .ok t := by
    obtain ⟨_ | ⟨t, ts⟩, keyword, place⟩ := ph
    · exact ⟨_, List.mem_cons_self, rfl⟩
    · exact ⟨t, List.mem_cons_self, rfl⟩
  match feed with
  | .phrase ph rest => exact .inl (hphrase ph rest)
  | .fault [] e rest => exact .inr ⟨e, rfl, rfl⟩
  | .fault (t :: ts) e rest => exact .inl ⟨t, List.mem_cons_self, rfl⟩
  | .finish [] eof => exact .inl ⟨eof, List.mem_cons_self, rfl⟩
  | .finish (t :: ts) eof => exact .inl ⟨t, List.mem_cons_self, rfl⟩
  | .stuck [] e => exact .inr ⟨e, rfl, rfl⟩
  | .stuck (t :: ts) e => exact .inl ⟨t, List.mem_cons_self, rfl⟩

/-- The error is the first fault of the feed, or about tokens in front of this fault.
    The tokens `before` come before the feed. -/
def Accounts (feed : Feed) (before : List Token) (e : ParseError) : Prop :=
  (∃ fault, e = .lexical fault ∧ feed.fault? = some fault) ∨ e.LiesIn (before ++ feed.tokens)

namespace Accounts

variable {feed rest : Feed} {ph : Phrase} {before : List Token} {e : ParseError}

theorem of_isAt {t : Token} (h : e.IsAt t) (ht : t ∈ feed.tokens) : feed.Accounts before e :=
  .inr (h.liesIn (List.mem_append_right before ht))

/-- An error that is found after the first phrase. -/
theorem past (h : rest.Accounts (before ++ ph.tokens) e) :
    (Feed.phrase ph rest).Accounts before e := by
  unfold Accounts at h ⊢
  rwa [List.append_assoc] at h

/-- An error of the first phrase. -/
theorem of_refusal {limit : Nat} {f : Failure} (h : ph.Refusal limit f)
    (hbefore : EndsPhrase before) (hts : InOrder (before ++ (Feed.phrase ph rest).tokens)) :
    (Feed.phrase ph rest).Accounts before f.error :=
  .inr (h.liesIn hbefore hts)

end Accounts

end Feed

/-! ## Runs -/

namespace Recognizer

open Feed (Accounts)

variable {o : Options} {before pending : List Token}

theorem accounts_finish {left : List Token} {eof : Token} {e : ParseError}
    {state : RecognizerState} (hts : InOrder (pending ++ [eof]))
    (h : finish o pending eof state = .error (e, left)) :
    (Feed.finish pending eof).Accounts before e := by
  cases refusal_of_finish h with
  | token hrun =>
    obtain ⟨pre, t, post, rfl, hat, -⟩ := OperandReader.exists_of_run_refused hrun
    exact Accounts.of_isAt hat (by simp [Feed.tokens])
  | @dangling first others hpending =>
    subst hpending
    have hlies : ParseError.LiesIn _ (before ++ (first :: (others ++ [eof]) ++ [])) :=
      .grammar (Span.Covers.ends hts) .operator (.lexeme eof.lexeme)
    rw [List.append_nil] at hlies
    exact .inr hlies
  | eof expected =>
    exact Accounts.of_isAt (ParseError.isAt_misplaced eof expected) (by simp [Feed.tokens])

/-- A fault is met, or one of the tokens in front of it is refused. -/
theorem accounts_meetFault {feed : Feed} {limit : Nat} {fault : LexicalError} {e : ParseError}
    {left : Option (List Token)} {state : RecognizerState} (hfault : feed.fault? = some fault)
    (h : meetFault limit feed.tokens fault state = (e, left)) : feed.Accounts before e := by
  rcases meetFault_cases limit feed.tokens fault state with hmet | ⟨e', left', hrun, hmet⟩
  · obtain ⟨rfl, -⟩ := Prod.mk.inj (hmet.symm.trans h)
    exact .inl ⟨fault, rfl, hfault⟩
  · obtain ⟨rfl, -⟩ := Prod.mk.inj (hmet.symm.trans h)
    obtain ⟨pre, t, post, hsplit, hat, -⟩ := OperandReader.exists_of_run_refused hrun
    exact Accounts.of_isAt hat (by simp [hsplit])

/-- **Runs**: the error of a run is the first fault of its feed, or it is about tokens in
    front of that fault. -/
theorem accounts_run {state : RecognizerState} {feed left : Feed} {e : ParseError}
    (hbefore : EndsPhrase before) (hts : InOrder (before ++ feed.tokens))
    (h : run o state feed = .error (e, left)) : feed.Accounts before e := by
  fun_induction run o state feed generalizing before with
  | case1 state ph rest state' hstep ih =>
    refine (ih (endsPhrase_append_tokens before ph) ?_ h).past
    rwa [List.append_assoc]
  | case2 => exact absurd h (by simp)
  | case3 state ph rest f hstep =>
    obtain ⟨rfl, -⟩ := Prod.mk.inj (Except.error.inj h)
    exact Accounts.of_refusal (refusal_of_step hstep) hbefore hts
  | case4 => exact absurd h (by simp)
  | case5 state pending eof e' left' hfinish =>
    obtain ⟨rfl, -⟩ := Prod.mk.inj (Except.error.inj h)
    exact accounts_finish hts.right hfinish
  | case6 state pending fault rest e' left' hmeet =>
    obtain ⟨rfl, -⟩ := Prod.mk.inj (Except.error.inj h)
    exact accounts_meetFault rfl hmeet
  | case7 state pending fault rest e' hmeet =>
    obtain ⟨rfl, -⟩ := Prod.mk.inj (Except.error.inj h)
    exact accounts_meetFault rfl hmeet
  | case8 state pending fault e' left' hmeet =>
    obtain ⟨rfl, -⟩ := Prod.mk.inj (Except.error.inj h)
    exact accounts_meetFault rfl hmeet
  | case9 state pending fault e' hmeet =>
    obtain ⟨rfl, -⟩ := Prod.mk.inj (Except.error.inj h)
    exact accounts_meetFault rfl hmeet

/-! ## Productions -/

/-- The error of a production that stops in front of some token. -/
theorem accounts_stop {drawn : List Invocation} {t : Token} {feed left : Feed} {e : ParseError}
    (ht : t ∈ feed.tokens) (h : runConstruction.stop drawn t feed = .error (e, left)) :
    feed.Accounts before e := by
  unfold runConstruction.stop at h
  split at h
  · obtain ⟨rfl, -⟩ := Prod.mk.inj (Except.error.inj h)
    exact Accounts.of_isAt (ParseError.isAt_misplaced t _) ht
  · exact absurd h (by simp)

theorem accounts_runConstruction {limit : Nat} {drawn : List Invocation} {feed left : Feed}
    {e : ParseError} (hbefore : EndsPhrase before) (hts : InOrder (before ++ feed.tokens))
    (h : runConstruction limit drawn feed = .error (e, left)) : feed.Accounts before e := by
  fun_induction runConstruction limit drawn feed generalizing before with
  | case1 drawn ph rest op hop call hmade ih =>
    refine (ih (endsPhrase_append_tokens before ph) ?_ h).past
    rwa [List.append_assoc]
  | case2 drawn ph rest op hop f hfail =>
    obtain ⟨rfl, -⟩ := Prod.mk.inj (Except.error.inj h)
    exact Accounts.of_refusal (Phrase.refuses_invocation _ f hfail) hbefore hts
  | case3 drawn ph rest hop =>
    exact accounts_stop (by simp [Feed.tokens, Phrase.tokens]) h
  | case4 drawn pending eof => exact accounts_stop (by simp [Feed.tokens]) h
  | case5 drawn pending fault rest =>
    obtain ⟨rfl, -⟩ := Prod.mk.inj (Except.error.inj h)
    exact .inl ⟨fault, rfl, rfl⟩
  | case6 drawn pending fault =>
    obtain ⟨rfl, -⟩ := Prod.mk.inj (Except.error.inj h)
    exact .inl ⟨fault, rfl, rfl⟩

theorem accounts_read {p : Production} {feed left : Feed} {e : ParseError}
    (hbefore : EndsPhrase before) (hts : InOrder (before ++ feed.tokens))
    (h : read o p feed = .error (e, left)) : feed.Accounts before e := by
  unfold read at h
  split at h
  · exact accounts_runConstruction hbefore hts h
  · exact accounts_run hbefore hts h

/-- The feed that an answer leaves: the last of the tokens, up to the same fault. -/
def IsRemainder (rest feed : Feed) : Prop :=
  rest.tokens <:+ feed.tokens ∧ rest.fault? = feed.fault?

theorem isRemainder_phrase {ph : Phrase} {rest feed : Feed} (h : IsRemainder rest feed) :
    IsRemainder rest (.phrase ph feed) :=
  ⟨h.1.trans (List.suffix_append ph.tokens feed.tokens), h.2⟩

theorem isRemainder_of_run {state : RecognizerState} {feed rest : Feed} {n : Node}
    (h : run o state feed = .ok (n, rest)) : IsRemainder rest feed := by
  fun_induction run o state feed with
  | case1 state ph later state' hstep ih => exact isRemainder_phrase (ih h)
  | case2 state ph later n' hstep =>
    obtain ⟨-, rfl⟩ := Prod.mk.inj (Except.ok.inj h)
    exact isRemainder_phrase ⟨List.suffix_refl _, rfl⟩
  | case4 state pending eof n' hfinish =>
    obtain ⟨-, rfl⟩ := Prod.mk.inj (Except.ok.inj h)
    exact ⟨List.suffix_append pending [eof], rfl⟩
  | case3 | case5 | case6 | case7 | case8 | case9 => exact absurd h (by simp)

theorem isRemainder_of_runConstruction {limit : Nat} {drawn : List Invocation}
    {feed rest : Feed} {n : Node} (h : runConstruction limit drawn feed = .ok (n, rest)) :
    IsRemainder rest feed := by
  have hstop {drawn : List Invocation} {t : Token} {feed : Feed}
      (heq : runConstruction.stop drawn t feed = .ok (n, rest)) : IsRemainder rest feed := by
    unfold runConstruction.stop at heq
    split at heq
    · exact absurd heq (by simp)
    · obtain ⟨-, rfl⟩ := Prod.mk.inj (Except.ok.inj heq)
      exact ⟨List.suffix_refl _, rfl⟩
  fun_induction runConstruction limit drawn feed with
  | case1 drawn ph later op hop call hmade ih => exact isRemainder_phrase (ih h)
  | case3 | case4 => exact hstop h
  | case2 | case5 | case6 => exact absurd h (by simp)

theorem isRemainder_of_read {p : Production} {feed rest : Feed} {n : Node}
    (h : read o p feed = .ok (n, rest)) : IsRemainder rest feed := by
  unfold read at h
  split at h
  · exact isRemainder_of_runConstruction h
  · exact isRemainder_of_run h

/-- What is left where nothing may be left is reported at the first token, or it is
    a fault. -/
theorem accounts_expectEnd {feed left : Feed} {e : ParseError}
    (h : expectEnd feed = .error (e, left)) : feed.Accounts before e := by
  unfold expectEnd at h
  rcases Feed.head_cases feed with ⟨t, ht, hhead⟩ | ⟨fault, hfault, hhead⟩
  · rw [hhead] at h
    dsimp only at h
    split at h
    · exact absurd h (by simp)
    · obtain ⟨rfl, -⟩ := Prod.mk.inj (Except.error.inj h)
      exact Accounts.of_isAt (ParseError.isAt_misplaced t _) ht
  · rw [hhead] at h
    obtain ⟨rfl, -⟩ := Prod.mk.inj (Except.error.inj h)
    exact .inl ⟨fault, rfl, hfault⟩

/-- **Productions** that fail to take up a feed. -/
theorem accounts_readAll {p : Production} {feed left : Feed} {e : ParseError}
    (hts : InOrder feed.tokens) (h : readAll o p feed = .error (e, left)) :
    feed.Accounts [] e := by
  unfold readAll at h
  split at h
  · next failure hread =>
    obtain rfl := Except.error.inj h
    exact accounts_read endsPhrase_nil hts hread
  · next n rest hread =>
    obtain ⟨⟨before, hsplit⟩, hfault⟩ := isRemainder_of_read hread
    split at h
    · next failure hend =>
      obtain rfl := Except.error.inj h
      have haccounts : rest.Accounts before e := accounts_expectEnd hend
      unfold Accounts at haccounts ⊢
      rwa [hsplit, hfault] at haccounts
    · exact absurd h (by simp)

end Recognizer

end PageContent
