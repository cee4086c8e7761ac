import PageContent.Proofs.Recognition

/-! # How phrases fail

    Every way in which reading fails, once and for all. What an error is about, where it
    lies and what it leaves are read off from here.

    * **Operands**: one of the tokens is refused, with an error at this very token.
    * **Phrases**: one of the tokens is refused, or the operator; or the operator does not
      take so many operands, or one of these; or it opens one group too many.
    * **Ends and faults**: one of the tokens is refused, or there are tokens without an
      operator, or the end comes too early; a fault is met, or a token in front of it is
      refused.

    Main statement: `Recognizer.refusal_of_step`.
-/

namespace PageContent

/-- A grammar error that lies at the token. -/
def ParseError.IsAt (e : ParseError) (t : Token) : Prop :=
  ∃ expected found, e = .grammar t.span expected found

theorem ParseError.isAt_misplaced (t : Token) (expected : Expectation) :
    (ParseError.misplaced t expected).IsAt t :=
  ⟨expected, _, rfl⟩

/-- Nesting that is too deep is a grammar error at what opens it. -/
theorem NestingGuard.eq_grammar_of_enter {g : NestingGuard} {s : Span} {e : ParseError}
    (h : g.enter s = .error e) : ∃ expected found, e = .grammar s expected found := by
  unfold enter at h
  split at h
  · exact absurd h (by simp)
  · exact ⟨_, _, (Except.error.inj h).symm⟩

/-! ## Operands -/

namespace OperandReader

variable {limit : Nat} {r : OperandReader} {t : Token}

/-- A reader that cannot go on blames what comes next. -/
theorem refuse_eq (r : OperandReader) (t : Token) :
    ∃ expected used, r.refuse t = (.misplaced t expected, used) := by
  unfold refuse
  split <;> exact ⟨_, _, rfl⟩

theorem isAt_enter {opened : OperandReader} {e : ParseError} {used : Bool}
    (h : r.enter limit t opened = .error (e, used)) : e.IsAt t := by
  unfold enter at h
  dsimp only at h
  split at h
  · exact absurd h (by simp)
  · next e' henter =>
    obtain ⟨rfl, -⟩ := Prod.mk.inj (Except.error.inj h)
    exact NestingGuard.eq_grammar_of_enter henter

/-- A token is refused with an error about itself. -/
theorem isAt_step {e : ParseError} {used : Bool} (h : r.step limit t = .error (e, used)) :
    e.IsAt t := by
  have hrefuse {r' : OperandReader} (heq : Except.error (r'.refuse t) =
      (.error (e, used) : Except (ParseError × Bool) OperandReader)) : e.IsAt t := by
    obtain ⟨expected, used', hrefused⟩ := refuse_eq r' t
    rw [hrefused] at heq
    obtain ⟨rfl, -⟩ := Prod.mk.inj (Except.error.inj heq)
    exact ParseError.isAt_misplaced t expected
  unfold step at h
  split at h
  · exact absurd h (by simp)
  · exact absurd h (by simp)
  · exact hrefuse h
  · exact isAt_enter h
  · exact isAt_enter h
  · split at h
    · exact absurd h (by simp)
    · exact hrefuse h
  · split at h
    · exact absurd h (by simp)
    · exact hrefuse h

/-- One of the tokens is refused; it may be left, and so are those after it. -/
theorem exists_of_run_refused {ts left : List Token} {e : ParseError}
    (h : r.run limit ts = .refused e left) :
    ∃ before t after, ts = before ++ t :: after ∧ e.IsAt t ∧
      (left = after ∨ left = t :: after) := by
  induction ts generalizing r with
  | nil =>
    unfold run at h
    split at h <;> exact absurd h (by simp)
  | cons t ts ih =>
    unfold run at h
    cases hstep : r.step limit t with
    | ok r' =>
      rw [hstep] at h
      obtain ⟨before, t', after, rfl, hat, hleft⟩ := ih h
      exact ⟨t :: before, t', after, rfl, hat, hleft⟩
    | error refused =>
      obtain ⟨e', used⟩ := refused
      have hat := isAt_step hstep
      rw [hstep] at h
      cases used with
      | true =>
        obtain ⟨rfl, rfl⟩ := OperandRun.refused.inj h
        exact ⟨[], t, ts, rfl, hat, .inl rfl⟩
      | false =>
        obtain ⟨rfl, rfl⟩ := OperandRun.refused.inj h
        exact ⟨[], t, ts, rfl, hat, .inr rfl⟩

end OperandReader

/-! ## Phrases -/

/-- A mismatch is an operand that is not what is demanded at its place. -/
theorem Operator.of_firstMismatch?_eq_some {arity : Arity} {count start index : Nat}
    {demand : Demand} {xs : List Operand} {x : Operand}
    (h : firstMismatch? arity count start xs = some (index, demand, x)) :
    ∃ i, index = start + i ∧ xs[i]? = some x ∧ arity.demand? index count = some demand ∧
      demand.accepts x = false := by
  induction xs generalizing start with
  | nil => exact absurd h (by simp [firstMismatch?])
  | cons y ys ih =>
    have hlater (hys : firstMismatch? arity count (start + 1) ys = some (index, demand, x)) :
        ∃ i, index = start + i ∧ (y :: ys)[i]? = some x ∧
          arity.demand? index count = some demand ∧ demand.accepts x = false := by
      obtain ⟨i, hindex, hx, hfound⟩ := ih hys
      exact ⟨i + 1, by omega, hx, hfound⟩
    rw [firstMismatch?] at h
    split at h
    · next demand' hdemand =>
      split at h
      · exact hlater h
      · next hrefused =>
        obtain ⟨rfl, rfl, rfl⟩ : start = index ∧ demand' = demand ∧ y = x := by simpa using h
        exact ⟨0, rfl, rfl, hdemand, Bool.eq_false_iff.mpr hrefused⟩
    · exact hlater h

namespace Phrase

open Grammar

/-- How a phrase fails. -/
inductive Refusal (limit : Nat) (ph : Phrase) : Failure → Prop
  /-- A token in front of the operator is refused. -/
  | token {e : ParseError} {left : List Token}
      (h : OperandReader.start.run limit ph.pending = .refused e left) :
      Refusal limit ph ⟨e, some left⟩
  /-- The operator cannot stand here. It stays, with all tokens in front of it or with
      none of them, or is used up. -/
  | operator (expected : Expectation) {left : Option (List Token)}
      (h : left = none ∨ left = some [] ∨ left = some ph.pending) :
      Refusal limit ph ⟨.misplaced ph.token expected, left⟩
  /-- The operator does not take this many operands. -/
  | arity {op : Operator} {xs : List (Operand × Span)} (hop : ph.operator? = some op)
      (hxs : ph.operands limit = .ok xs) (h : op.arity.acceptsCount xs.length = false) :
      Refusal limit ph ⟨.arity (callSpan xs ph.place) ph.keyword op.arity xs.length, none⟩
  /-- One of the operands is not what the operator demands at its place. -/
  | type {op : Operator} {xs : List (Operand × Span)} {index : Nat} {x : Operand} {s : Span}
      {demand : Demand} (hop : ph.operator? = some op) (hxs : ph.operands limit = .ok xs)
      (hx : xs[index]? = some (x, s)) (hdemand : op.arity.demand? index xs.length = some demand)
      (h : demand.accepts x = false) :
      Refusal limit ph ⟨.type s ph.keyword index demand x.kind, none⟩
  /-- The operator opens one group too many. -/
  | nesting {xs : List (Operand × Span)} {e : ParseError} (hxs : ph.operands limit = .ok xs)
      (h : ∃ expected found, e = .grammar (callSpan xs ph.place) expected found) :
      Refusal limit ph ⟨e, none⟩

variable {α β : Type} {limit : Nat} {ph : Phrase}

/-- The result is no failure of any other kind. -/
def Refuses (limit : Nat) (ph : Phrase) (r : Except Failure α) : Prop :=
  ∀ f, r = .error f → ph.Refusal limit f

theorem refuses_ok (a : α) : ph.Refuses limit (.ok a) := by
  intro f hf
  exact absurd hf (by simp)

theorem refuses_error {f : Failure} (h : ph.Refusal limit f) :
    ph.Refuses limit (.error f : Except Failure α) := by
  intro f' hf
  obtain rfl := Except.error.inj hf
  exact h

theorem refuses_refused (expected : Expectation) :
    ph.Refuses limit (.error (ph.refused expected) : Except Failure α) :=
  refuses_error (.operator expected (.inr (.inr rfl)))

theorem refuses_bind {r : Except Failure α} {next : α → Except Failure β}
    (h : ph.Refuses limit r) (hnext : ∀ a, r = .ok a → ph.Refuses limit (next a)) :
    ph.Refuses limit (r >>= next) := by
  cases r with
  | error f => exact refuses_error (h f rfl)
  | ok a => exact hnext a rfl

theorem refuses_operands : ph.Refuses limit (ph.operands limit) := by
  unfold operands
  split
  · exact refuses_ok _
  · next e left hrun => exact refuses_error (.token hrun)
  · next reader hrun =>
    -- the operator is refused, after all tokens in front of it
    obtain ⟨expected, used, hrefused⟩ := reader.refuse_eq ph.token
    rw [hrefused]
    refine refuses_error (.operator expected ?_)
    cases used
    · exact .inr (.inl rfl)
    · exact .inl rfl

/-- Operands that the operator does not accept are too few or too many, or one of them
    is of a wrong type. -/
theorem refusal_of_check {op : Operator} {xs : List (Operand × Span)} {e : ParseError}
    (hop : ph.operator? = some op) (hxs : ph.operands limit = .ok xs)
    (h : op.check (xs.map (·.1)) (xs.map (·.2)) ph.place = .error e) :
    ph.Refusal limit ⟨e, none⟩ := by
  have hkeyword : op.keyword = ph.keyword := Operator.keyword_of_lookup? hop
  unfold Operator.check at h
  rw [hkeyword, List.length_map] at h
  dsimp only at h
  split at h
  · split at h
    · exact absurd h (by simp)
    · next index demand x hmismatch =>
      obtain ⟨i, hindex, hx, hdemand, hrefused⟩ := Operator.of_firstMismatch?_eq_some hmismatch
      obtain rfl : index = i := by omega
      obtain ⟨⟨x', s⟩, hxs', rfl⟩ := Option.map_eq_some_iff.mp (List.getElem?_map.symm.trans hx)
      rw [List.getElem?_map, hxs'] at h
      rw [← Except.error.inj h]
      exact .type hop hxs hxs' hdemand hrefused
  · next hcount =>
    have hspan : ((xs.map (·.2)).head?.map (·.join ph.place)).getD ph.place =
        callSpan xs ph.place := by
      cases xs <;> rfl
    rw [hspan] at h
    rw [← Except.error.inj h]
    exact .arity hop hxs (Bool.eq_false_iff.mpr hcount)

theorem refuses_invocation (p : Production) : ph.Refuses limit (ph.invocation limit p) := by
  unfold invocation
  cases hxs : ph.operands limit with
  | error f => exact refuses_error (refuses_operands f hxs)
  | ok xs =>
    cases hop : ph.operator?.filter (·.production = p) with
    | none => exact refuses_error (.operator _ (.inl rfl))
    | some op =>
      dsimp only
      split
      · next e hcheck =>
        exact refuses_error (refusal_of_check (Option.filter_eq_some_iff.mp hop).1 hxs hcheck)
      · exact refuses_ok _

theorem refuses_undefinedInvocation : ph.Refuses limit (ph.undefinedInvocation limit) := by
  unfold undefinedInvocation
  cases hxs : ph.operands limit with
  | error f => exact refuses_error (refuses_operands f hxs)
  | ok xs => exact refuses_ok _

end Phrase

namespace Recognizer

open Phrase

variable {o : Options} {limit : Nat} {ph : Phrase} {outer : List Frame}

/-! ## Steps -/

/-- An invocation of the phrase, after which nothing fails. -/
theorem refuses_invocation_then (p : Production) (next : Invocation → Progress) :
    ph.Refuses limit (ph.invocation limit p >>= fun call => .ok (next call)) :=
  refuses_bind (refuses_invocation p) fun call _ => refuses_ok (next call)

theorem refuses_openSection {s : Section} {p : Production} {call : Invocation}
    (h : ph.invocation limit p = .ok call) : ph.Refuses limit (openSection limit s call outer) := by
  obtain ⟨op, xs, -, -, hxs, -, rfl⟩ := invocation_eq_ok_iff.mp h
  unfold openSection
  dsimp only
  split
  · next e henter =>
    rw [invoke_eq] at henter
    exact refuses_error (.nesting hxs (NestingGuard.eq_grammar_of_enter henter))
  · exact refuses_ok _

theorem refuses_stepPath (drawn : List Invocation) (clip : Option Invocation) :
    ph.Refuses limit (stepPath limit ph outer drawn clip) := by
  unfold stepPath
  dsimp only
  split
  · exact refuses_refused _
  · split
    · exact refuses_invocation_then _ _
    split
    · exact refuses_refused _
    split
    · exact refuses_invocation_then _ _
    split
    · exact refuses_invocation_then _ _
    · exact refuses_refused _

theorem refuses_stepPart (part : Part) : ph.Refuses limit (stepPart limit ph outer part) := by
  cases part with
  | opening s =>
    exact refuses_bind (refuses_invocation s.opening) fun call hcall => refuses_openSection hcall
  | single p => exact refuses_invocation_then p _
  | undefined => exact refuses_bind refuses_undefinedInvocation fun call _ => refuses_ok _
  | path drawn clip => exact refuses_stepPath drawn clip
  | image => exact refuses_invocation_then _ _
  | imageData begin => exact refuses_invocation_then _ _
  | imageEnd begin data => exact refuses_invocation_then _ _

theorem refuses_stepItem (top : Frame) : ph.Refuses o.maxNesting (stepItem o ph top outer) := by
  unfold stepItem
  dsimp only
  split
  · split
    · exact refuses_stepPart _
    · exact refuses_refused _
  · split
    · exact refuses_stepPart _
    · exact refuses_refused _
    · exact refuses_refused _

/-- **One phrase**: a step fails in one of the ways of its phrase. -/
theorem refusal_of_step {state : RecognizerState} {f : Failure}
    (h : step o ph state = .error f) : ph.Refusal o.maxNesting f := by
  have hrefuses : ph.Refuses o.maxNesting (step o ph state) := by
    cases state with
    | within part outer => exact refuses_stepPart part
    | between top outer =>
      unfold step
      dsimp only
      split
      · split
        · exact refuses_invocation_then _ _
        · exact refuses_stepItem top
      · exact refuses_stepItem top
  exact hrefuses f h

/-! ## Ends and faults -/

/-- How the end of the stream fails, with tokens in front of it. -/
inductive EndRefusal (limit : Nat) (pending : List Token) (eof : Token) :
    ParseError × List Token → Prop
  /-- One of the tokens is refused. -/
  | token {e : ParseError} {left : List Token}
      (h : OperandReader.start.run limit pending = .refused e left) :
      EndRefusal limit pending eof (e, left)
  /-- There are tokens, and no operator follows. -/
  | dangling {first : Token} {others : List Token} (h : pending = first :: others) :
      EndRefusal limit pending eof
        (.grammar (first.span.join eof.span) .operator (.lexeme eof.lexeme), pending)
  /-- Something has to come in place of the end. -/
  | eof (expected : Expectation) {left : List Token} (h : left = [] ∨ left = pending) :
      EndRefusal limit pending eof (.misplaced eof expected, left)

theorem refusal_of_finishFrames {pending : List Token} {eof : Token} {top : Frame}
    {r : ParseError × List Token} (h : finishFrames o pending eof top outer = .error r) :
    EndRefusal o.maxNesting pending eof r := by
  fun_induction finishFrames o pending eof top outer with
  | case1 top outer first others hpending =>
    subst hpending
    rw [← Except.error.inj h]
    exact .dangling rfl
  | case2 => exact absurd h (by simp)
  | case3 => exact absurd h (by simp)
  | case4 top s _ hpending _ f outer ih =>
    subst hpending
    exact ih h
  | case5 =>
    rw [← Except.error.inj h]
    exact .eof _ (.inl rfl)

theorem refusal_of_finish {pending : List Token} {eof : Token} {state : RecognizerState}
    {r : ParseError × List Token} (h : finish o pending eof state = .error r) :
    EndRefusal o.maxNesting pending eof r := by
  cases state with
  | between top outer => exact refusal_of_finishFrames h
  | within part outer =>
    unfold finish at h
    dsimp only at h
    split at h
    · split at h
      · next e left hrun =>
        rw [← Except.error.inj h]
        exact .token hrun
      · next reader hrun =>
        obtain ⟨expected, used, hrefused⟩ := reader.refuse_eq eof
        rw [← Except.error.inj h, hrefused]
        exact .eof _ (.inl rfl)
      · rw [← Except.error.inj h]
        exact .eof _ (.inl rfl)
    · rw [← Except.error.inj h]
      exact .eof _ (.inr rfl)

/-- A fault is met as it is, unless one of the tokens in front of it is refused. -/
theorem meetFault_cases (limit : Nat) (pending : List Token) (e : LexicalError)
    (state : RecognizerState) :
    meetFault limit pending e state = (.lexical e, none) ∨
      ∃ e' left, OperandReader.start.run limit pending = .refused e' left ∧
        meetFault limit pending e state = (e', some left) := by
  cases state with
  | between top outer => exact .inl rfl
  | within part outer =>
    unfold meetFault
    dsimp only
    split
    · split
      · next e' left hrun => exact .inr ⟨e', left, hrun, rfl⟩
      · exact .inl rfl
    · exact .inl rfl

end Recognizer

end PageContent
