import PageContent.Proofs.Activations
import PageContent.Proofs.Laziness
import PageContent.Proofs.Prefixes

/-! # The operator that is called

    What to read is chosen by the next operator, over all the tokens in front of it.
    Only then are these read as operands, bracket by bracket.

    * **Ahead** are the tokens of the buffer that are not used, and those that the lexer
      reads after them.
    * **The first operator** ahead is that of the phrase which the feed starts with, and so
      there is one at most. It is what looking for the next operator finds.
    * **Dispatch**: an item is read only if the brackets in front of the first operator
      match, and then its first call is of this operator.
-/

namespace PageContent

/-! ## Phrases in front of a feed -/

namespace Feed

/-- A token in front of a phrase is its operator, or waits for it. -/
theorem of_cons_phrase {t : Token} {feed rest : Feed} {ph : Phrase}
    (h : cons t feed = .phrase ph rest) :
    ph.tokens = [t] ∨ ∃ later, feed = .phrase later rest ∧ ph.tokens = t :: later.tokens := by
  obtain ⟨lexeme, place⟩ := t
  unfold cons at h
  split at h
  · next keyword hkeyword =>
    obtain ⟨rfl, rfl⟩ := Feed.phrase.inj h
    exact .inl (congrArg (fun l => [(⟨l, place⟩ : Token)]) hkeyword.symm)
  · cases feed with
    | phrase later rest' =>
      obtain ⟨rfl, rfl⟩ := Feed.phrase.inj h
      exact .inr ⟨later, rfl, rfl⟩
    | fault pending e rest' => exact absurd h (by simp [prepend])
    | finish pending eof => exact absurd h (by simp [prepend])
    | stuck pending e => exact absurd h (by simp [prepend])

/-- The tokens of the first phrase of a scan are reached. -/
theorem exists_reaches_phrase {l : Lexer} {ph : Phrase} {rest : Feed}
    (h : ofScan (.ofLexer l) = .phrase ph rest) : ∃ l', l.Reaches ph.tokens l' := by
  fun_induction Scan.ofLexer l generalizing ph with
  | case1 l t l' hnext heof => exact absurd h (by simp [ofScan])
  | case2 l t l' hnext hne _ ih =>
    rw [ofScan_token] at h
    rcases of_cons_phrase h with htokens | ⟨later, hlater, htokens⟩
    · rw [htokens]
      exact ⟨l', .step hnext hne .refl⟩
    · obtain ⟨l'', hreach⟩ := ih hlater
      rw [htokens]
      exact ⟨l'', .step hnext hne hreach⟩
  | case3 l e l' hnext hlt ih => exact absurd h (by simp [ofScan])
  | case4 l e l' hnext hge => exact absurd h (by simp [ofScan])

/-- So are those of a phrase that begins in a buffer, after what the buffer has of it. -/
theorem exists_reaches_buffered {ts : List Token} {l : Lexer} {ph : Phrase} {rest : Feed}
    (h : pushAll ts (ofScan (.ofLexer l)) = .phrase ph rest) :
    ∃ us l', l.Reaches us l' ∧ ph.tokens <+: ts ++ us := by
  induction ts generalizing ph with
  | nil =>
    obtain ⟨l', hreach⟩ := exists_reaches_phrase h
    exact ⟨ph.tokens, l', hreach, List.prefix_refl _⟩
  | cons t ts ih =>
    have hpush : push t (pushAll ts (ofScan (.ofLexer l))) = .phrase ph rest := h
    unfold push at hpush
    split at hpush
    · exact absurd hpush (by simp)
    · rcases of_cons_phrase hpush with htokens | ⟨later, hlater, htokens⟩
      · refine ⟨[], l, .refl, ?_⟩
        rw [htokens, List.append_nil]
        exact ⟨ts, rfl⟩
      · obtain ⟨us, l', hreach, hprefix⟩ := ih hlater
        refine ⟨us, l', hreach, ?_⟩
        rw [htokens]
        exact (List.prefix_cons_inj t).mpr hprefix

end Feed

namespace Descent

/-! ## The first operator -/

/-- Tokens that come next: those in the buffer that are not used, and those that the
    lexer reads after them. -/
def Ahead (d : Descent) (ts : List Token) : Prop :=
  ∃ us l, d.lexer.Reaches us l ∧ ts <+: d.unread ++ us

/-- The first operator ahead, with the tokens in front of it. -/
structure FirstOperator (d : Descent) (before : List Token) (keyword : String) (place : Span) :
    Prop where
  ahead : d.Ahead (before ++ [⟨.operator keyword, place⟩])
  /-- Neither an operator nor the end of the stream comes before. -/
  before : ∀ t ∈ before, t.lexeme.endsOperands = false

section FirstOperator

variable {d : Descent} {before : List Token} {keyword : String} {place : Span}

theorem FirstOperator.of_feed {rest : Feed} (h : d.feed = .phrase ⟨before, keyword, place⟩ rest)
    (hbefore : ∀ t ∈ before, t.lexeme.endsOperands = false) :
    d.FirstOperator before keyword place where
  ahead := Feed.exists_reaches_buffered h
  before := hbefore

/-- The first operator ends the first phrase. -/
theorem FirstOperator.exists_feed (h : d.FirstOperator before keyword place) :
    ∃ rest, d.feed = .phrase ⟨before, keyword, place⟩ rest := by
  obtain ⟨us, l, hreach, more, hmore⟩ := h.ahead
  have hfeed : d.feed = .pushAll (d.unread ++ us) (.ofScan (.ofLexer l)) := by
    rw [Feed.pushAll_append, Feed.pushAll_ofTokens hreach.ne_eof, ← Lexer.ofScan_of_reaches hreach]
    rfl
  rw [← hmore, List.append_assoc, Feed.pushAll_append, Feed.pushAll_pending h.before] at hfeed
  refine ⟨.pushAll more (.ofScan (.ofLexer l)), hfeed.trans ?_⟩
  show Feed.prepend before (.phrase ⟨[], keyword, place⟩ _) = _
  simp only [Feed.prepend, List.append_nil]
  rfl

/-- There is one first operator at most. -/
theorem FirstOperator.unique {before' : List Token} {keyword' : String} {place' : Span}
    (h : d.FirstOperator before keyword place) (h' : d.FirstOperator before' keyword' place') :
    before' = before ∧ keyword' = keyword ∧ place' = place := by
  obtain ⟨rest, hfeed⟩ := h.exists_feed
  obtain ⟨rest', hfeed'⟩ := h'.exists_feed
  obtain ⟨hphrase, -⟩ := Feed.phrase.inj (hfeed'.symm.trans hfeed)
  exact Phrase.mk.inj hphrase

/-- Looking for the next operator finds the first one. -/
theorem FirstOperator.peekKeyword (h : d.FirstOperator before keyword place)
    (hd : d.Consistent) :
    ∃ d', Descent.peekKeyword d = some (.ok ⟨.operator keyword, place⟩, d') := by
  obtain ⟨rest, hfeed⟩ := h.exists_feed
  obtain ⟨r, d', hrun, -, hread⟩ := peekKeyword_reads hd
  rw [hfeed, Feed.seek] at hread
  cases r with
  | ok t =>
    obtain ⟨rfl, -⟩ := Prod.mk.inj (Except.ok.inj hread.1)
    exact ⟨d', hrun⟩
  | error e => exact absurd hread (by simp)

/-! ## Dispatch -/

/-- An item that has been read begins with a call of the first operator, whose brackets
    match. -/
theorem FirstOperator.of_uses {d' : Descent} {n : Node} {ts : List Token}
    (huses : Uses d ts d') (h : Begins n ts) :
    ∃ before keyword place call others, d.FirstOperator before keyword place ∧
      turns [] before = some [] ∧ n.invocations = call :: others ∧ call.keyword = keyword := by
  obtain ⟨call, others, hleaves, before, place, after, rfl, hcloses⟩ := h
  have hoperator : NoOperator before := by
    intro t ht keyword hkeyword
    exact absurd (hcloses.before t ht) (by simp [hkeyword, Lexeme.endsOperands])
  have hfeed := huses.feed.trans (Recognizer.ofTokens_operator hoperator rfl after d'.feed)
  refine ⟨before, call.keyword, place, call, others, .of_feed hfeed hcloses.before, ?_, ?_, rfl⟩
  · exact hcloses.turns []
  · rw [Node.invocations_eq_leaves, hleaves]

end FirstOperator

/-- **Dispatch**: in every state that can come up in a session, and at every level, an
    item is read or there is an error. If it is read, its first invocation is of the first
    operator ahead, which looking for the next operator finds, and the brackets in front
    of that operator match. If the first operator lies in an array or a dictionary that is
    still open, or if a bracket in front of it closes what is not open, there is an error. -/
theorem item_calls_first_operator {o : Options} {bytes : List UInt8} {log : ErrorLog}
    {stack : List Activity} {d : Descent} (h : Active o bytes log stack d) (level : Level)
    (glyph : Bool) :
    ∃ r d', item level glyph d = some (r, d') ∧
      (∀ n, r = .ok n → ∃ before keyword place call others,
        d.FirstOperator before keyword place ∧
        (∃ d₁, peekKeyword d = some (.ok ⟨.operator keyword, place⟩, d₁)) ∧
        turns [] before = some [] ∧
        n.invocations = call :: others ∧ call.keyword = keyword) ∧
      ∀ before keyword place, d.FirstOperator before keyword place →
        (∃ b opened, turns [] before = some (b :: opened)) ∨ turns [] before = none →
          ∃ e, r = .error e := by
  have hd := h.nested.consistent
  obtain ⟨r, d', hrun, -, hspent⟩ := item_spends hd level glyph
  refine ⟨r, d', hrun, ?_, ?_⟩
  · intro n hn
    obtain ⟨ts, huses, hbegins⟩ := hspent n hn
    obtain ⟨before, keyword, place, call, others, hfirst, hturns, hcalls⟩ :=
      FirstOperator.of_uses huses hbegins
    exact ⟨before, keyword, place, call, others, hfirst, hfirst.peekKeyword hd, hturns, hcalls⟩
  · intro before keyword place hfirst hopen
    cases r with
    | error e => exact ⟨e, rfl⟩
    | ok n =>
      obtain ⟨ts, huses, hbegins⟩ := hspent n rfl
      obtain ⟨before', keyword', place', -, -, hfirst', hturns, -⟩ :=
        FirstOperator.of_uses huses hbegins
      obtain ⟨rfl, -, -⟩ := hfirst.unique hfirst'
      rw [hturns] at hopen
      rcases hopen with ⟨b, opened, hopen⟩ | hopen
      · exact absurd hopen (by simp)
      · exact absurd hopen (by simp)

/-- A call as it is, and behind a bracket that stays open. -/
theorem item_calls_first_operator_width :
    (∃ n d' call others,
      item .page true (start Profile.default.options (Byte.ofChars "0 w".toList) .empty) =
        some (.ok n, d') ∧ n.invocations = call :: others ∧ call.keyword = "w") ∧
    ∃ e d',
      item .page true (start Profile.default.options (Byte.ofChars "[0 w".toList) .empty) =
        some (.error e, d') := by
  refine ⟨?_, ?_⟩
  · have hzero : (Lexer.ofBytes (Byte.ofChars "0 w".toList)).next =
        (.ok ⟨.integer 0, ⟨0, 1⟩⟩, ⟨Byte.ofChars " w".toList, 1, false⟩) := by rfl
    have hwidth : Lexer.next ⟨Byte.ofChars " w".toList, 1, false⟩ =
        (.ok ⟨.operator "w", ⟨2, 3⟩⟩, ⟨[], 3, false⟩) := by decide +kernel
    have hfirst : FirstOperator
        (start Profile.default.options (Byte.ofChars "0 w".toList) .empty)
        [⟨.integer 0, ⟨0, 1⟩⟩] "w" ⟨2, 3⟩ :=
      ⟨⟨_, _, .step hzero (by decide) (.step hwidth (by decide) .refl), List.prefix_refl _⟩,
        by decide⟩
    have hstart : Active Profile.default.options (Byte.ofChars "0 w".toList) .empty [] _ := .start
    obtain ⟨r, d', hrun, hcalls, -⟩ := item_calls_first_operator hstart .page true
    have hok : (ContentStream.parse Profile.default.options (Byte.ofChars "0 w".toList)).isOk := by
      decide +kernel
    cases r with
    | ok n =>
      obtain ⟨before, keyword, place, call, others, hfirst', -, -, hinvocations, hkeyword⟩ :=
        hcalls n rfl
      obtain ⟨-, rfl, -⟩ := hfirst.unique hfirst'
      exact ⟨n, d', call, others, hrun, hinvocations, hkeyword⟩
    | error e =>
      -- the stream would not be accepted
      have hinside : Inside (start Profile.default.options (Byte.ofChars "0 w".toList) .empty)
          Profile.default.options [⟨.stream, ([] : List Node).reverse⟩] :=
        ⟨hstart.nested.consistent, rfl, rfl⟩
      obtain ⟨rest, hfeed⟩ := hfirst.exists_feed
      have hperforms := pageItem_performs hinside (by rw [hfeed]; rfl) (by decide)
      have hrefused := ContentStream.parse_eq_error_iff_run.mpr ⟨_, (hperforms.of_run hrun).2⟩
      rw [hrefused] at hok
      exact absurd hok Bool.false_ne_true
  · have hopen : (Lexer.ofBytes (Byte.ofChars "[0 w".toList)).next =
        (.ok ⟨.arrayOpen, ⟨0, 1⟩⟩, ⟨Byte.ofChars "0 w".toList, 1, false⟩) := by rfl
    have hzero : Lexer.next ⟨Byte.ofChars "0 w".toList, 1, false⟩ =
        (.ok ⟨.integer 0, ⟨1, 2⟩⟩, ⟨Byte.ofChars " w".toList, 2, false⟩) := by rfl
    have hwidth : Lexer.next ⟨Byte.ofChars " w".toList, 2, false⟩ =
        (.ok ⟨.operator "w", ⟨3, 4⟩⟩, ⟨[], 4, false⟩) := by decide +kernel
    have hfirst : FirstOperator
        (start Profile.default.options (Byte.ofChars "[0 w".toList) .empty)
        [⟨.arrayOpen, ⟨0, 1⟩⟩, ⟨.integer 0, ⟨1, 2⟩⟩] "w" ⟨3, 4⟩ :=
      ⟨⟨_, _, .step hopen (by decide) (.step hzero (by decide) (.step hwidth (by decide) .refl)),
        List.prefix_refl _⟩, by decide⟩
    obtain ⟨r, d', hrun, -, herror⟩ := item_calls_first_operator .start .page true
    obtain ⟨e, rfl⟩ := herror _ _ _ hfirst (.inl ⟨.array, [], rfl⟩)
    exact ⟨e, d', hrun⟩

end Descent

end PageContent
