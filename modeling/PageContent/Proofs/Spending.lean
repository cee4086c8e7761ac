import PageContent.Proofs.OperandDescent

/-! # Tokens that are used

    What a call that succeeds has used of the stream, in any state of the descent.

    * **Looking** reads into the buffer, but the position stays.
    * **Spending**: a call ends, and if it succeeds it has used some tokens that were
      next, one step of the position for each. As much is open after it as before.
      There is a rule for each way of making calls.
    * **Brackets**: the tokens of an operand close exactly the brackets that they open.
      By induction on the size of the feed, since containers hold operands.
    * **Calls** use operands and the operator after them.
-/

namespace PageContent

/-! ## Brackets -/

/-- What may be open around a token. -/
inductive Bracket where
  | array
  | dictionary
  deriving DecidableEq, Repr

/-- The brackets that are open after a token, the innermost first. A token may close
    the innermost one only. -/
def turn (opened : List Bracket) (t : Token) : Option (List Bracket) :=
  match t.lexeme, opened with
  | .arrayOpen, opened => some (.array :: opened)
  | .dictOpen, opened => some (.dictionary :: opened)
  | .arrayClose, .array :: outer => some outer
  | .arrayClose, _ => none
  | .dictClose, .dictionary :: outer => some outer
  | .dictClose, _ => none
  | _, opened => some opened

/-- The brackets that are open after some tokens, unless one of these closes a bracket
    that is not open. -/
def turns (opened : List Bracket) (ts : List Token) : Option (List Bracket) :=
  ts.foldlM turn opened

theorem turns_cons {opened opened' : List Bracket} {t : Token} (h : turn opened t = some opened')
    (ts : List Token) : turns opened (t :: ts) = turns opened' ts := by
  rw [turns, List.foldlM_cons, h]
  rfl

theorem turns_append {opened opened' : List Bracket} {ts : List Token}
    (h : turns opened ts = some opened') (us : List Token) :
    turns opened (ts ++ us) = turns opened' us := by
  rw [turns, List.foldlM_append, ← turns, h]
  rfl

/-- Tokens before an operator that close some brackets, and those that they open. -/
structure Closes (opened : List Bracket) (ts : List Token) : Prop where
  turns : ∀ outer, turns (opened ++ outer) ts = some outer
  before : ∀ t ∈ ts, t.lexeme.endsOperands = false

namespace Closes

theorem nil : Closes [] [] :=
  ⟨fun _ => rfl, List.forall_mem_nil _⟩

theorem append {opened : List Bracket} {ts us : List Token} (h : Closes [] ts)
    (h' : Closes opened us) : Closes opened (ts ++ us) := by
  refine ⟨fun outer => ?_, List.forall_mem_append.mpr ⟨h.before, h'.before⟩⟩
  have hts : PageContent.turns (opened ++ outer) ts = some (opened ++ outer) := h.turns _
  rw [turns_append hts]
  exact h'.turns outer

theorem cons {opened opened' : List Bracket} {t : Token} {ts : List Token}
    (ht : t.lexeme.endsOperands = false)
    (hturn : ∀ outer, turn (opened ++ outer) t = some (opened' ++ outer))
    (h : Closes opened' ts) : Closes opened (t :: ts) := by
  refine ⟨fun outer => ?_, List.forall_mem_cons.mpr ⟨ht, h.before⟩⟩
  rw [turns_cons (hturn outer)]
  exact h.turns outer

/-- A scalar opens nothing. -/
theorem scalar {t : Token} {x : Operand} (h : t.lexeme.scalar? = some x) : Closes [] [t] := by
  obtain ⟨lexeme, span⟩ := t
  refine cons ?_ (fun outer => ?_) nil
  · cases lexeme <;> first | rfl | exact absurd h.symm (Option.some_ne_none x)
  · cases lexeme <;> first | rfl | exact absurd h.symm (Option.some_ne_none x)

end Closes

theorem Feed.size_ofTokens (ts : List Token) (feed : Feed) :
    (ofTokens ts feed).size = ts.length + feed.size := by
  induction ts with
  | nil => simp [ofTokens]
  | cons t ts ih =>
    have hcons : (cons t (ofTokens ts feed)).size = 1 + (ofTokens ts feed).size := by
      unfold cons
      split
      · simp [size]
      · exact size_prepend [t] _
    show (cons t (ofTokens ts feed)).size = _
    rw [hcons, ih, List.length_cons]
    omega

namespace Descent

/-! ## Looking -/

section Looking

variable {d d' : Descent} {n : Nat} {r : Except ParseError Token}

/-- Reading into the buffer leaves the position where it is. -/
theorem fill_stays (hd : d.Consistent) (hn : n ≤ d.unread.length)
    (hbefore : ∀ t ∈ d.unread.take n, t.lexeme.endsOperands = false)
    {y : Except ParseError Unit} (h : fill (d.position + n) d = some (y, d')) :
    d'.position = d.position := by
  have hlength : d.unread.length = d.buffer.length - d.position := List.length_drop
  have hle := hd.position_le
  rcases Nat.lt_or_eq_of_le hn with hlt | rfl
  · rw [fill_of_lt (by omega)] at h
    rw [← (Prod.mk.inj (Option.some.inj h)).2]
  · rw [List.take_length] at hbefore
    have hbuffer : ∀ t ∈ d.buffer, t.lexeme ≠ .eof := by
      intro t ht heof
      rw [← List.take_append_drop d.position d.buffer] at ht
      rcases List.mem_append.mp ht with ht | ht
      · exact hd.before_eof t ht heof
      · exact absurd (hbefore t ht) (by simp [heof, Lexeme.endsOperands])
    have hindex : d.position + d.unread.length = d.buffer.length := by omega
    rw [hindex, fill_length hbuffer] at h
    split at h
    · rw [← (Prod.mk.inj (Option.some.inj h)).2]
      rfl
    · rw [← (Prod.mk.inj (Option.some.inj h)).2]

theorem index_stays {xs : List Token} {i : Nat} (h : Call.index xs i d = some (r, d')) : d' = d := by
  unfold Call.index at h
  cases hget : xs[i]? with
  | none =>
    rw [hget] at h
    exact absurd h (Option.some_ne_none _).symm
  | some t =>
    rw [hget] at h
    exact (Prod.mk.inj (Option.some.inj h)).2.symm

theorem peekNth_stays (hd : d.Consistent) (hn : n ≤ d.unread.length)
    (hbefore : ∀ t ∈ d.unread.take n, t.lexeme.endsOperands = false)
    (h : peekNth n d = some (r, d')) : d'.position = d.position := by
  cases hfill : fill (d.position + n) d with
  | none =>
    have hnone : peekNth n d = Option.bind (fill (d.position + n) d) _ := rfl
    rw [hnone, hfill] at h
    exact absurd h (by simp)
  | some found =>
    obtain ⟨y, d₁⟩ := found
    have hstays := fill_stays hd hn hbefore hfill
    cases y with
    | error e =>
      rw [peekNth_of_error hfill] at h
      rw [← (Prod.mk.inj (Option.some.inj h)).2, hstays]
    | ok u =>
      -- after that the buffer is only read
      have hread : peekNth n d = (do
          let last ← Call.decrease d₁.buffer.length
          Call.index d₁.buffer (min (d.position + n) last) : Call Token) d₁ :=
        Call.bind_of_ok hfill
      rw [hread] at h
      cases hlast : d₁.buffer.length with
      | zero =>
        rw [hlast] at h
        exact absurd h (Option.some_ne_none _).symm
      | succ last =>
        rw [hlast] at h
        rw [index_stays h, hstays]

theorem peekKeywordFrom_stays {d : Descent} {n : Nat} (hd : d.Consistent)
    (hn : n ≤ d.unread.length)
    (hbefore : ∀ t ∈ d.unread.take n, t.lexeme.endsOperands = false)
    (h : peekKeywordFrom n d = some (r, d')) : d'.position = d.position := by
  obtain ⟨y, d₁, hrun, hlater, hfound⟩ := peekNth_ends hd hn hbefore
  have hstays := peekNth_stays hd hn hbefore hrun
  rw [peekKeywordFrom] at h
  cases y with
  | error e =>
    rw [Call.bind_of_error hrun] at h
    rw [← (Prod.mk.inj (Option.some.inj h)).2, hstays]
  | ok t =>
    obtain ⟨hfeed, -, us, hunread⟩ := hfound
    rw [Call.bind_of_ok hrun] at h
    by_cases ht : t.lexeme.endsOperands
    · rw [if_pos ht] at h
      rw [← (Prod.mk.inj (Option.some.inj h)).2, hstays]
    · rw [if_neg ht] at h
      obtain ⟨hn', hsize, hbefore'⟩ := looked_past hunread hbefore (Bool.eq_false_iff.mpr ht)
      rw [List.length_take_of_le hn] at hn' hsize hbefore'
      have hless : d₁.feed.size - (n + 1) < d.feed.size - n := by
        rw [← hfeed]
        omega
      exact (peekKeywordFrom_stays hlater.consistent hn' hbefore' h).trans hstays
termination_by d.feed.size - n

end Looking

/-! ## Spending -/

/-- The second state comes after the first one by the use of some tokens. -/
structure Uses (d : Descent) (ts : List Token) (d' : Descent) : Prop where
  feed : d.feed = Feed.ofTokens ts d'.feed
  position : d'.position = d.position + ts.length
  counters : d'.counters = d.counters

theorem Uses.trans {d d' d'' : Descent} {ts us : List Token} (h : Uses d ts d')
    (h' : Uses d' us d'') : Uses d (ts ++ us) d'' where
  feed := by rw [h.feed, h'.feed, Feed.ofTokens_append]
  position := by rw [h'.position, h.position, List.length_append, Nat.add_assoc]
  counters := h'.counters.trans h.counters

theorem Uses.size {d d' : Descent} {ts : List Token} (h : Uses d ts d') :
    d.feed.size = ts.length + d'.feed.size := by
  rw [h.feed, Feed.size_ofTokens]

theorem Uses.size_lt {d d' : Descent} {ts : List Token} (h : Uses d ts d') (hts : ts ≠ []) :
    d'.feed.size < d.feed.size := by
  have hpos := List.length_pos_iff.mpr hts
  rw [h.size]
  omega

/-- The call ends. If it succeeds, its value is such for the tokens that it has used. -/
def Spends {α : Type} (x : Call α) (d : Descent) (P : α → List Token → Prop) : Prop :=
  Ends x d fun r d' => ∀ a, r = .ok a → ∃ ts, Uses d ts d' ∧ P a ts

section Spends

variable {α β : Type} {x : Call α} {f : α → Call β} {d : Descent} {P P' : α → List Token → Prop}
  {Q : β → List Token → Prop}

theorem Spends.mono (h : Spends x d P) (himp : ∀ a ts, P a ts → P' a ts) : Spends x d P' := by
  refine Ends.mono h ?_
  intro r d' hlater hspent a ha
  obtain ⟨ts, huses, hp⟩ := hspent a ha
  exact ⟨ts, huses, himp a ts hp⟩

theorem Spends.pure {a : α} (hd : d.Consistent) (h : P a []) : Spends (Pure.pure a) d P := by
  refine Ends.pure hd ?_
  intro b hb
  obtain rfl := Except.ok.inj hb
  exact ⟨[], ⟨rfl, rfl, rfl⟩, h⟩

theorem Spends.throw (hd : d.Consistent) (e : ParseError) :
    Spends (MonadExcept.throw e) d P :=
  Ends.throw hd fun _ ha => absurd ha (by simp)

/-- What comes after some tokens have been used. -/
theorem Spends.after {d' : Descent} {ts : List Token} {y : Call β} (huses : Uses d ts d')
    (h : Spends y d' fun b us => Q b (ts ++ us)) :
    Ends y d' fun r d'' => ∀ b, r = .ok b → ∃ us, Uses d us d'' ∧ Q b us := by
  refine Ends.mono h ?_
  intro r d'' _ hspent b hb
  obtain ⟨us, huses', hq⟩ := hspent b hb
  exact ⟨ts ++ us, huses.trans huses', hq⟩

/-- One call after the other uses the tokens of both. -/
theorem Spends.bind (hx : Spends x d P)
    (hf : ∀ a ts d', Later d d' → Uses d ts d' → P a ts →
      Spends (f a) d' fun b us => Q b (ts ++ us)) : Spends (x >>= f) d Q := by
  refine Ends.bind hx ?_ ?_
  · intro a d' hlater hspent
    obtain ⟨ts, huses, hp⟩ := hspent a rfl
    exact Spends.after huses (hf a ts d' hlater huses hp)
  · intro e d' _ _ b hb
    exact absurd hb (by simp)

theorem Spends.get {f : Descent → Call β} (h : Spends (f d) d Q) :
    Spends (MonadState.get >>= f) d Q :=
  h

/-- A call that finds something without using tokens, and then another one. -/
theorem Spends.looking {S : α → Descent → Prop}
    (hx : Ends x d fun r d' => ∀ a, r = .ok a → Uses d [] d' ∧ S a d')
    (hf : ∀ a d', Later d d' → Uses d [] d' → S a d' → Spends (f a) d' Q) :
    Spends (x >>= f) d Q := by
  refine Ends.bind hx ?_ ?_
  · intro a d' hlater hfound
    obtain ⟨huses, hs⟩ := hfound a rfl
    exact Spends.after huses (hf a d' hlater huses hs)
  · intro e d' _ _ b hb
    exact absurd hb (by simp)

/-- A call that finds something without using tokens, alone. -/
theorem Spends.of_found {S : α → Descent → Prop}
    (hx : Ends x d fun r d' => ∀ a, r = .ok a → Uses d [] d' ∧ S a d') :
    Spends x d fun _ ts => ts = [] := by
  refine Ends.mono hx ?_
  intro r d' _ hfound a ha
  exact ⟨[], (hfound a ha).1, rfl⟩

theorem peek_found (hd : d.Consistent) :
    Ends peek d fun r d' => ∀ t, r = .ok t → Uses d [] d' ∧ ∃ us, d'.unread = t :: us := by
  obtain ⟨r, d', hrun, hlater, hfound⟩ := peek_ends hd
  have hstays := peekNth_stays hd (Nat.zero_le _) (by simp) hrun
  refine ⟨r, d', hrun, hlater, fun t ht => ?_⟩
  subst ht
  exact ⟨⟨hfound.1.symm, hstays, hfound.2.1⟩, hfound.2.2⟩

theorem peekKeyword_found (hd : d.Consistent) :
    Ends peekKeyword d fun r d' =>
      ∀ t, r = .ok t → Uses d [] d' ∧ d.feed.keyword? = some t := by
  obtain ⟨r, d', hrun, hlater, hfound⟩ := peekKeyword_reads hd
  have hstays := peekKeywordFrom_stays hd (Nat.zero_le _) (by simp) hrun
  refine ⟨r, d', hrun, hlater, fun t ht => ?_⟩
  subst ht
  obtain ⟨hkeyword, hfeed⟩ := Feed.seek_eq_ok_iff.mp hfound.1
  exact ⟨⟨hfeed.symm, hstays, hfound.2⟩, hkeyword⟩

theorem Spends.peek {f : Token → Call β} (hd : d.Consistent)
    (hf : ∀ t d', Later d d' → Uses d [] d' → (∃ us, d'.unread = t :: us) →
      Spends (f t) d' Q) : Spends (Descent.peek >>= f) d Q :=
  Spends.looking (peek_found hd) hf

theorem Spends.peekKeyword {f : Token → Call β} (hd : d.Consistent)
    (hf : ∀ t d', Later d d' → Uses d [] d' → d.feed.keyword? = some t →
      Spends (f t) d' Q) : Spends (Descent.peekKeyword >>= f) d Q :=
  Spends.looking (peekKeyword_found hd) hf

/-- A token that has been looked at is used. -/
theorem uses_proceed {t : Token} {us : List Token} (hd : d.Consistent)
    (hunread : d.unread = t :: us) (ht : t.lexeme ≠ .eof) :
    Later d { d with position := d.position + 1 } ∧
      Uses d [t] { d with position := d.position + 1 } := by
  obtain ⟨hlater, hfeed⟩ := proceed_ends hd hunread ht
  refine ⟨hlater, ?_, rfl, rfl⟩
  have hpush : d.feed = .push t (.pushAll us (.ofScan (.ofLexer d.lexer))) := by
    rw [feed, hunread]
    rfl
  rw [hfeed, hpush, Feed.tail_push ht, Feed.push, if_neg ht]
  rfl

theorem Spends.proceed {t : Token} {us : List Token} {f : PUnit → Call β} (hd : d.Consistent)
    (hunread : d.unread = t :: us) (ht : t.lexeme ≠ .eof)
    (hf : ∀ d', Later d d' → Uses d [t] d' → Spends (f ⟨⟩) d' fun b us => Q b (t :: us)) :
    Spends (Descent.proceed >>= f) d Q := by
  obtain ⟨hlater, huses⟩ := uses_proceed hd hunread ht
  exact Ends.modify hlater (Spends.after huses (hf _ hlater huses))

theorem advance_spends (hd : d.Consistent) :
    Spends advance d fun t ts => ts = if t.lexeme = .eof then [] else [t] := by
  refine Spends.peek hd ?_
  intro t d' hlater _ hunread
  obtain ⟨us, hunread⟩ := hunread
  by_cases ht : t.lexeme = .eof
  · rw [if_pos ht]
    exact Spends.pure hlater.consistent (if_pos ht).symm
  · rw [if_neg ht]
    refine Spends.proceed hlater.consistent hunread ht ?_
    intro d'' hlater' _
    exact Spends.pure hlater'.consistent (if_neg ht).symm

/-- The next token, which is used if it does not end the operands. -/
theorem Spends.advance {f : Token → Call β} (hd : d.Consistent)
    (hf : ∀ t ts d', Later d d' → Uses d ts d' → (t.lexeme ≠ .eof → ts = [t]) →
      Spends (f t) d' fun b us => Q b (ts ++ us)) : Spends (Descent.advance >>= f) d Q := by
  refine Spends.bind (advance_spends hd) ?_
  intro t ts d' hlater huses hts
  refine hf t ts d' hlater huses fun ht => ?_
  rw [hts, if_neg ht]

/-! ### Guards -/

/-- One call opens something and another one closes it again, after whatever has left as
    much open. -/
def Guards (enter leave : Call Unit) (d : Descent) : Prop :=
  Ends enter d fun r d₁ => ∀ u, r = .ok u → d₁.feed = d.feed ∧ d₁.position = d.position ∧
    ∀ d₂, d₂.Consistent → d₂.counters = d₁.counters →
      ∃ d₃, leave d₂ = some (.ok (), d₃) ∧ Later d₂ d₃ ∧ d₃.feed = d₂.feed ∧
        d₃.position = d₂.position ∧ d₃.counters = d.counters

/-- What is called between the two calls of a guard is all that uses tokens. -/
theorem Spends.guarded {enter leave : Call Unit} {k : α → Call β} (hguards : Guards enter leave d)
    (hk : ∀ a, k a = leave >>= fun _ => f a)
    (hx : ∀ d', Later d d' → d'.feed = d.feed → Spends x d' P)
    (hf : ∀ a ts d', d'.Consistent → P a ts → Spends (f a) d' fun b us => Q b (ts ++ us)) :
    Spends (enter >>= fun _ => x >>= k) d Q := by
  refine Ends.bind hguards ?_ ?_
  · intro u d₁ hlater₁ hopen
    obtain ⟨hfeed₁, hposition₁, hleave⟩ := hopen u rfl
    refine Ends.bind (hx d₁ hlater₁ hfeed₁) ?_ ?_
    · intro a d₂ hlater₂ hspent
      obtain ⟨ts, huses, hp⟩ := hspent a rfl
      obtain ⟨d₃, hrun, hlater₃, hfeed₃, hposition₃, hcounters₃⟩ :=
        hleave d₂ hlater₂.consistent huses.counters
      have huses' : Uses d ts d₃ := by
        refine ⟨?_, ?_, hcounters₃⟩
        · rw [hfeed₃, ← huses.feed, hfeed₁]
        · rw [hposition₃, huses.position, hposition₁]
      rw [hk]
      exact Ends.run hrun hlater₃ (Spends.after huses' (hf a ts d₃ hlater₃.consistent hp))
    · intro e d₂ _ _ b hb
      exact absurd hb (by simp)
  · intro e d₁ _ _ b hb
    exact absurd hb (by simp)

end Spends

/-- Counters that are set for what is called between, and put back after it. -/
theorem Guards.of_counters {enter leave : Call Unit} {d : Descent} (hd : d.Consistent)
    (inner : Descent)
    (henter : (∃ e, enter d = some (.error e, d)) ∨ enter d = some (.ok (), d.withCounters inner))
    (hleave : ∀ d₂ : Descent, d₂.counters = inner.counters →
      leave d₂ = some (.ok (), d₂.withCounters d)) : Guards enter leave d := by
  rcases henter with ⟨e, hrun⟩ | hrun
  · exact ⟨.error e, d, hrun, Later.refl hd, fun _ hu => absurd hu (by simp)⟩
  · refine ⟨.ok (), _, hrun, later_withCounters hd inner, ?_⟩
    intro u _
    refine ⟨rfl, rfl, fun d₂ hd₂ hcounters => ?_⟩
    exact ⟨_, hleave d₂ hcounters, later_withCounters hd₂ d, rfl, rfl, rfl⟩

/-- A guard that is entered is one deeper, within its limit, or there is an error. -/
theorem enter_cases (g : NestingGuard) (opened : Span) (put : NestingGuard → Descent → Descent)
    (d : Descent) {x : Call Unit}
    (hx : x d = (match g.enter opened with
      | .ok guard => modify (put guard)
      | .error e => throw e : Call Unit) d) :
    (∃ e, x d = some (.error e, d)) ∨
      x d = some (.ok (), put { g with depth := g.depth + 1 } d) ∧ g.depth + 1 ≤ g.limit := by
  rw [hx]
  unfold NestingGuard.enter
  by_cases hle : g.depth + 1 ≤ g.limit
  · rw [if_pos hle]
    exact .inr ⟨rfl, hle⟩
  · rw [if_neg hle]
    exact .inl ⟨_, rfl⟩

theorem enterContainer_cases (d : Descent) (opened : Span) :
    (∃ e, enterContainer opened d = some (.error e, d)) ∨
      enterContainer opened d = some (.ok (),
        { d with containers := { d.containers with depth := d.containers.depth + 1 } }) ∧
      d.containers.depth + 1 ≤ d.containers.limit :=
  enter_cases d.containers opened (fun guard d => { d with containers := guard }) d rfl

theorem container_guards {d : Descent} (hd : d.Consistent) (opened : Span) :
    Guards (enterContainer opened) leaveContainer d := by
  refine Guards.of_counters hd
    { d with containers := { d.containers with depth := d.containers.depth + 1 } }
    ((enterContainer_cases d opened).imp_right And.left) ?_
  intro d₂ hcounters
  have hgroups : d₂.groups.depth = d.groups.depth := congrArg (·.1) hcounters
  have hdepth : d₂.containers.depth = d.containers.depth + 1 := congrArg (·.2.1) hcounters
  have hcompatibility : d₂.compatibility = d.compatibility := congrArg (·.2.2) hcounters
  rw [leaveContainer_eq hdepth, withCounters, ← hgroups, ← hcompatibility]

/-! ## Operands -/

/-- With at most `n` tokens ahead, an operand uses some, which close what they open. -/
def OperandSpends (n : Nat) : Prop :=
  ∀ d : Descent, d.Consistent → d.feed.size ≤ n →
    Spends operand d fun _ ts => ts ≠ [] ∧ Closes [] ts

/-- With fewer than `n` tokens ahead, the members of a container use those up to its
    end. -/
def ContainersSpend (n : Nat) : Prop :=
  ∀ d : Descent, d.Consistent → d.feed.size < n →
    (∀ items, Spends (arrayItems items) d fun _ ts => Closes [.array] ts) ∧
    ∀ entries, Spends (dictEntries entries) d fun _ ts => Closes [.dictionary] ts

/-- A container uses its opening bracket, and what its members use. -/
theorem container_spends {α : Type} {x : Call α} {f : α → Operand × Span}
    {k : α → Call (Operand × Span)} {d : Descent} {t : Token} (b : Bracket) (hd : d.Consistent)
    (ht : t.lexeme.endsOperands = false) (hturn : ∀ outer, turn outer t = some (b :: outer))
    (hk : ∀ a, k a = leaveContainer >>= fun _ => pure (f a))
    (hx : ∀ d', Later d d' → d'.feed = d.feed → Spends x d' fun _ ts => Closes [b] ts) :
    Spends (enterContainer t.span >>= fun _ => x >>= k) d
      fun _ ts => t :: ts ≠ [] ∧ Closes [] (t :: ts) := by
  refine Spends.guarded (container_guards hd t.span) hk hx ?_
  intro a ts d' hd' hts
  have hturn' : ∀ outer, turn ([] ++ outer) t = some ([b] ++ outer) := hturn
  refine Spends.pure hd' ⟨by simp, ?_⟩
  rw [List.append_nil]
  exact Closes.cons ht hturn' hts

theorem operand_spends {n : Nat} (hcontainers : ContainersSpend n) : OperandSpends n := by
  intro d hd hsize
  rw [operand]
  refine Spends.advance hd ?_
  intro t ts d' hlater huses hts
  have hless : t.lexeme ≠ .eof → d'.feed.size < n := by
    intro ht
    have hused : ts ≠ [] := by simp [hts ht]
    exact Nat.lt_of_lt_of_le (huses.size_lt hused) hsize
  split
  · next x hx =>
    have ht : t.lexeme ≠ .eof := by
      intro heof
      rw [heof] at hx
      exact absurd hx.symm (Option.some_ne_none x)
    refine Spends.pure hlater.consistent ?_
    rw [hts ht]
    exact ⟨by simp, Closes.scalar hx⟩
  · split
    · next hopen =>
      have ht : t.lexeme ≠ .eof := by simp [hopen]
      rw [hts ht]
      refine container_spends .array hlater.consistent (by simp [hopen, Lexeme.endsOperands])
        (fun outer => by simp [turn, hopen]) (fun _ => rfl) ?_
      intro d₁ hlater₁ hfeed₁
      exact (hcontainers d₁ hlater₁.consistent (hfeed₁ ▸ hless ht)).1 []
    · next hopen =>
      have ht : t.lexeme ≠ .eof := by simp [hopen]
      rw [hts ht]
      refine container_spends .dictionary hlater.consistent (by simp [hopen, Lexeme.endsOperands])
        (fun outer => by simp [turn, hopen]) (fun _ => rfl) ?_
      intro d₁ hlater₁ hfeed₁
      exact (hcontainers d₁ hlater₁.consistent (hfeed₁ ▸ hless ht)).2 []
    · exact Spends.throw hlater.consistent _

/-- One more item of an array, and those after it. -/
theorem ContainersSpend.arrayItems {n : Nat} (ih : ContainersSpend n) {d : Descent}
    (hd : d.Consistent) (hsize : d.feed.size ≤ n) (items : List Operand) :
    Spends (arrayItems items) d fun _ ts => Closes [.array] ts := by
  rw [Descent.arrayItems]
  refine Spends.peek hd ?_
  intro t d' hlater _ hunread
  obtain ⟨us, hunread⟩ := hunread
  split
  · next hclose =>
    refine Spends.proceed hlater.consistent hunread (by simp [hclose]) ?_
    intro d₁ hlater₁ _
    exact Spends.pure hlater₁.consistent (Closes.cons (by simp [hclose, Lexeme.endsOperands])
      (fun outer => by simp [turn, hclose]) Closes.nil)
  · exact Spends.throw hlater.consistent _
  · exact Spends.throw hlater.consistent _
  · exact Spends.throw hlater.consistent _
  · have hsize' : d'.feed.size ≤ n := Nat.le_trans hlater.size hsize
    refine Spends.bind (operand_spends ih d' hlater.consistent hsize') ?_
    intro x ts d₁ hlater₁ huses₁ hts
    have hless : d₁.feed.size < n := Nat.lt_of_lt_of_le (huses₁.size_lt hts.1) hsize'
    refine ((ih d₁ hlater₁.consistent hless).1 (items ++ [x.1])).mono ?_
    intro _ us hus
    exact hts.2.append hus

/-- One more entry of a dictionary, and those after it. -/
theorem ContainersSpend.dictEntries {n : Nat} (ih : ContainersSpend n) {d : Descent}
    (hd : d.Consistent) (hsize : d.feed.size ≤ n) (entries : List (String × Operand)) :
    Spends (dictEntries entries) d fun _ ts => Closes [.dictionary] ts := by
  rw [Descent.dictEntries]
  refine Spends.advance hd ?_
  intro t ts d' hlater _ hts
  split
  · next hclose =>
    refine Spends.pure hlater.consistent ?_
    rw [hts (by simp [hclose])]
    exact Closes.cons (by simp [hclose, Lexeme.endsOperands])
      (fun outer => by simp [turn, hclose]) Closes.nil
  · next key hkey =>
    have hsize' : d'.feed.size ≤ n := Nat.le_trans hlater.size hsize
    refine Spends.bind (operand_spends ih d' hlater.consistent hsize') ?_
    intro x us d₁ hlater₁ huses₁ hus
    have hless : d₁.feed.size < n := Nat.lt_of_lt_of_le (huses₁.size_lt hus.1) hsize'
    refine ((ih d₁ hlater₁.consistent hless).2 (entries ++ [(key, x.1)])).mono ?_
    intro _ vs hvs
    rw [hts (by simp [hkey])]
    exact Closes.cons (by simp [hkey, Lexeme.endsOperands]) (fun outer => by simp [turn, hkey])
      (hus.2.append hvs)
  · exact Spends.throw hlater.consistent _

theorem containers_spend (n : Nat) : ContainersSpend n := by
  induction n with
  | zero => exact fun d _ hsize => absurd hsize (Nat.not_lt_zero _)
  | succ n ih =>
    intro d hd hsize
    have hle := Nat.le_of_lt_succ hsize
    exact ⟨ih.arrayItems hd hle, ih.dictEntries hd hle⟩

theorem operands_spend {d : Descent} (hd : d.Consistent) (done : List (Operand × Span)) :
    Spends (operands done) d fun _ ts => Closes [] ts := by
  rw [operands]
  refine Spends.peek hd ?_
  intro t d' hlater huses _
  split
  · exact Spends.pure hlater.consistent Closes.nil
  · refine Spends.bind
      (operand_spends (containers_spend d'.feed.size) d' hlater.consistent (Nat.le_refl _)) ?_
    intro x ts d₁ hlater₁ huses₁ hts
    have hless : d₁.feed.size < d.feed.size :=
      Nat.lt_of_lt_of_le (huses₁.size_lt hts.1) hlater.size
    refine (operands_spend hlater₁.consistent (done ++ [x])).mono ?_
    intro _ us hus
    exact hts.2.append hus
termination_by d.feed.size

/-! ## Calls -/

/-- Tokens that begin with the operator of a call, after operands for it. -/
def Leads (call : Invocation) (ts : List Token) : Prop :=
  ∃ before place after, ts = before ++ ⟨.operator call.keyword, place⟩ :: after ∧
    Closes [] before

theorem Leads.append {call : Invocation} {ts : List Token} (h : Leads call ts)
    (us : List Token) : Leads call (ts ++ us) := by
  obtain ⟨before, place, after, rfl, hbefore⟩ := h
  exact ⟨before, place, after ++ us, by simp, hbefore⟩

theorem Leads.ne_nil {call : Invocation} {ts : List Token} (h : Leads call ts) : ts ≠ [] := by
  obtain ⟨before, place, after, rfl, -⟩ := h
  simp

/-- Operands and the operator after them are what a call is made of. -/
theorem call_spends {d : Descent} {make : List (Operand × Span) → Token → Call Invocation}
    (hd : d.Consistent)
    (hmake : ∀ xs t d', d'.Consistent →
      Spends (make xs t) d' fun call ts => ts = [] ∧ t.lexeme = .operator call.keyword) :
    Spends (do
        let xs ← operands []
        let t ← advance
        make xs t) d Leads := by
  refine Spends.bind (operands_spend hd []) ?_
  intro xs before d₁ hlater₁ _ hbefore
  refine Spends.advance hlater₁.consistent ?_
  intro t ts d₂ hlater₂ _ hts
  refine (hmake xs t d₂ hlater₂.consistent).mono ?_
  rintro call _ ⟨rfl, ht⟩
  obtain ⟨lexeme, place⟩ := t
  obtain rfl : lexeme = .operator call.keyword := ht
  rw [hts (by simp)]
  exact ⟨before, place, [], by simp, hbefore⟩

theorem invocation_spends {d : Descent} (hd : d.Consistent) (p : Production) :
    Spends (invocation p) d Leads := by
  refine call_spends hd ?_
  intro xs t d' hd'
  unfold invoke
  split
  · next keyword hkeyword =>
    split
    · exact Spends.throw hd' _
    · split
      · exact Spends.throw hd' _
      · exact Spends.pure hd' ⟨rfl, hkeyword⟩
  · exact Spends.throw hd' _

theorem undefinedInvocation_spends {d : Descent} (hd : d.Consistent) :
    Spends undefinedInvocation d Leads := by
  refine call_spends hd ?_
  intro xs t d' hd'
  unfold invokeUndefined
  split
  · next keyword hkeyword => exact Spends.pure hd' ⟨rfl, hkeyword⟩
  · exact Spends.throw hd' _

end Descent

end PageContent
