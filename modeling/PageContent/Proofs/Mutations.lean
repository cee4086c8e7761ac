import PageContent.Mutation
import PageContent.Proofs.Lexing
import PageContent.Proofs.Prefixes

/-! # Mutations keep their promises

    A valid stream that has been mutated is rejected, with the kind of error that
    the mutation promises.

    * **Places**: a token lies in the bytes between the bytes of the tokens before
      it, with a gap, and those of the tokens after it.
    * **Edits** at the place of a word never join it with its neighbours, since
      the word was the end of anything before it.
    * **Mutations**: the tokens before the edit are the same, so the recogniser
      is in the same state. What it meets then is one of the first errors.
-/

namespace PageContent

/-! ## Words -/

/-- A lexeme that is spelled by regular bytes alone. -/
def Lexeme.isWord : Lexeme → Bool
  | .integer _ => true
  | .real _ => true
  | .boolean _ => true
  | .null => true
  | .operator _ => true
  | _ => false

namespace Reading

theorem ne_of_keyword (text : String) :
    (∀ value, keyword text ≠ .literal value) ∧ keyword text ≠ .eof := by
  unfold keyword
  split
  · simp
  split
  · simp
  split <;> simp

/-- What is spelled by regular bytes is a word, and a literal string starts with its
    parenthesis. At the end of the stream there is no byte. -/
theorem start_of_token {b : UInt8} {rest : List UInt8} {lexeme : Lexeme} {width : Nat}
    (h : ofBytes (b :: rest) = .token lexeme width) :
    (lexeme.isWord = true → Byte.isRegular b = true ∧ (word (b :: rest)).length = width) ∧
      ((∃ value, lexeme = .literal value) → b = Byte.ofChar '(') ∧ lexeme ≠ .eof := by
  cases says_of_token h with
  | numeral hb hparse =>
    rcases Numeral.exists_of_parse? hparse with ⟨i, rfl⟩ | ⟨negative, d, rfl⟩
    · exact ⟨fun _ => ⟨isRegular_of_isLead b hb, rfl⟩, by simp, by simp⟩
    · exact ⟨fun _ => ⟨isRegular_of_isLead b hb, rfl⟩, by simp, by simp⟩
  | literal hb => exact ⟨fun hl => absurd hl Bool.false_ne_true, fun _ => hb, by simp⟩
  | word hb hlead =>
    obtain ⟨hliteral, heof⟩ := ne_of_keyword (Utf8.decode (word (b :: rest)))
    exact ⟨fun _ => ⟨hb, rfl⟩, fun ⟨value, hl⟩ => absurd hl (hliteral value), heof⟩
  | hex => exact ⟨fun hl => absurd hl Bool.false_ne_true, by simp, by simp⟩
  | dictOpen => exact ⟨fun hl => absurd hl Bool.false_ne_true, by simp, by simp⟩
  | dictClose => exact ⟨fun hl => absurd hl Bool.false_ne_true, by simp, by simp⟩
  | arrayOpen => exact ⟨fun hl => absurd hl Bool.false_ne_true, by simp, by simp⟩
  | arrayClose => exact ⟨fun hl => absurd hl Bool.false_ne_true, by simp, by simp⟩
  | name => exact ⟨fun hl => absurd hl Bool.false_ne_true, by simp, by simp⟩

/-- The bytes of a word: they do not end one themselves, and end where one may. -/
theorem wordEnds_of_token {raw after : List UInt8} {lexeme : Lexeme}
    (h : ofBytes (raw ++ after) = .token lexeme raw.length) (hl : lexeme.isWord = true) :
    ¬ WordEnds (raw ++ after) ∧ WordEnds after := by
  cases hbytes : raw ++ after with
  | nil =>
    rw [hbytes] at h
    obtain ⟨rfl, -⟩ := Reading.token.inj h
    exact absurd hl (by decide)
  | cons b rest =>
    have h' := h
    rw [hbytes] at h'
    obtain ⟨hb, hlength⟩ := (start_of_token h').1 hl
    refine ⟨?_, ?_⟩
    · intro hends
      have := hends b rfl
      simp [hb] at this
    · rw [← hbytes] at hlength
      exact (eq_of_word_length hlength).2

/-- The bytes of a literal string: a parenthesis, and the bytes in which its end is
    found. -/
theorem exists_contents_of_literal {raw after value : List UInt8}
    (h : ofBytes (raw ++ after) = .token (.literal value) raw.length) :
    ∃ raw', raw = Byte.ofChar '(' :: raw' ∧ 0 < raw'.length ∧
      LiteralString.contents 0 (raw' ++ after) = some (value, raw'.length) := by
  obtain ⟨hpos, -⟩ := width_pos_of_token h (by simp)
  match raw, hpos with
  | b :: raw', _ =>
    rw [List.cons_append] at h
    obtain rfl := (start_of_token h).2.1 ⟨value, rfl⟩
    rw [ofBytes_literal] at h
    unfold literal at h
    split at h
    · next value' width hcontents =>
      obtain ⟨hvalue, hwidth⟩ := Reading.token.inj h
      obtain rfl : width = raw'.length := by simpa using hwidth
      obtain rfl : value' = value := by simpa using hvalue
      exact ⟨raw', rfl, (LiteralString.width_le_of_contents hcontents).1, hcontents⟩
    · exact absurd h (by simp)

/-- What is left of a string after a cut is a fault. -/
theorem literal_take {raw after value : List UInt8} {k : Nat}
    (h : LiteralString.contents 0 (raw ++ after) = some (value, raw.length))
    (hk : k < raw.length) :
    ofBytes (Byte.ofChar '(' :: raw.take k) =
      .fault .unterminatedLiteral 0 ((raw.take k).length + 1) := by
  have hcut := LiteralString.contents_take_of_lt h hk
  rw [List.take_append_of_le_length (Nat.le_of_lt hk)] at hcut
  rw [ofBytes_literal]
  unfold literal
  rw [hcut]

end Reading

/-- A digit by itself is an integer. -/
theorem Numeral.parse?_digit {d : UInt8} (h : Byte.isDigit d = true) :
    parse? [d] = some (.integer (Int64.ofNat (Byte.digitValue d))) := by
  have hall : ∀ d, Byte.isDigit d = true →
      parse? [d] = some (.integer (Int64.ofNat (Byte.digitValue d))) :=
    Byte.forall_of_fin (by decide +kernel)
  exact hall d h

/-- The next token is a digit, which ends before something that is not regular. -/
theorem Lexer.next_digit {g r : List UInt8} {d : UInt8} (hd : Byte.isDigit d = true)
    (hg : Reading.blanks false (g ++ ([d] ++ r)) = g.length) (hr : WordEnds r)
    (position : Nat) :
    ∃ i s, next ⟨g ++ ([d] ++ r), position, false⟩ =
      (.ok ⟨.integer i, s⟩, ⟨r, position + g.length + 1, false⟩) := by
  have hlead : Numeral.isLead d = true := by
    simp [Numeral.isLead, hd]
  have hregular : ∀ x ∈ [d], Byte.isRegular x = true := by
    intro x hx
    obtain rfl := List.mem_singleton.mp hx
    exact Reading.isRegular_of_isLead x hlead
  have hread := Reading.ofBytes_number hlead hregular hr (Numeral.parse?_digit hd)
  have hnext := next_plain hg hread position
  exact ⟨_, ⟨position + g.length, position + g.length + 1⟩, by simpa using hnext⟩

/-! ## Places -/

/-- The place of the token `t` in a stream: the lexer has read the tokens `ts` from
    the bytes `before`, and reads `t` from `raw`. The tokens `us` are in `after`. -/
structure TokenAt (ts : List Token) (t : Token) (us : List Token)
    (before gap raw after : List UInt8) : Prop where
  reaches : Lexer.Reaches (Lexer.ofBytes (before ++ (gap ++ (raw ++ after)))) ts
    ⟨gap ++ (raw ++ after), before.length, false⟩
  blanks : Reading.blanks false (gap ++ (raw ++ after)) = gap.length
  reading : Reading.ofBytes (raw ++ after) = .token t.lexeme raw.length
  span : t.span = ⟨before.length + gap.length, before.length + gap.length + raw.length⟩
  others : t.lexeme ≠ .eof → t.lexeme ≠ .operator "ID" →
    (Scan.ofLexer ⟨after, before.length + gap.length + raw.length, false⟩).tokens = .ok us

/-- Every token has a place, unless it is image data. -/
theorem exists_tokenAt {bytes : List UInt8} {ts us : List Token} {t : Token}
    (h : tokenize bytes = .ok (ts ++ t :: us)) (hdata : ∀ d, t.lexeme ≠ .inlineData d) :
    ∃ before gap raw after, bytes = before ++ (gap ++ (raw ++ after)) ∧
      TokenAt ts t us before gap raw after := by
  obtain ⟨⟨rest, position, dataNext⟩, l', hreach, hnext, -, hothers⟩ := Lexer.exists_reaches h
  cases dataNext with
  | true =>
    obtain ⟨sep, data, gap, r, -, -, -, rfl, -⟩ := Lexer.of_next_data hnext
    exact absurd rfl (hdata data)
  | false =>
    obtain ⟨before, hbytes, hposition⟩ := Lexer.exists_rest_of_reaches hreach
    obtain ⟨gap, raw, hrest, hblanks, hread, hspan, hposition', hdataNext⟩ :=
      Lexer.of_next_plain hnext
    have hbefore : position = before.length := by
      simpa [Lexer.ofBytes] using hposition
    obtain ⟨after, position', dataNext'⟩ := l'
    dsimp only at hrest hposition' hdataNext hread
    subst hbefore hrest
    have hbytes' : bytes = before ++ (gap ++ (raw ++ after)) := hbytes
    refine ⟨before, gap, raw, after, hbytes', hbytes' ▸ hreach, hblanks, hread, hspan, ?_⟩
    intro heof hid
    have hfalse : dataNext' = false := by
      rw [hdataNext, decide_eq_false hid]
    rw [← hposition', ← hfalse]
    exact hothers heof

namespace TokenAt

variable {ts us : List Token} {t : Token} {before gap raw after : List UInt8}

/-- The step of the lexer at the place. -/
theorem next (h : TokenAt ts t us before gap raw after) :
    Lexer.next ⟨gap ++ (raw ++ after), before.length, false⟩ =
      (.ok t, ⟨after, before.length + gap.length + raw.length, t.lexeme = .operator "ID"⟩) := by
  have hnext := Lexer.next_plain h.blanks h.reading before.length
  rwa [← h.span] at hnext

/-- What is put in the place of a token comes after the same tokens, as long as
    it ends words and terminators where the token does. -/
theorem edit (h : TokenAt ts t us before gap raw after) (hne : t.lexeme ≠ .operator "EI")
    {z : List UInt8} (hword : WordEnds (raw ++ after) → WordEnds z)
    (hmark : StandsAlone (raw ++ after) → StandsAlone z) :
    Lexer.Reaches (Lexer.ofBytes (before ++ (gap ++ z))) ts ⟨gap ++ z, before.length, false⟩ := by
  have hnext : ∀ t' l'', Lexer.next ⟨gap ++ (raw ++ after), before.length, false⟩ =
      (.ok t', l'') → t'.lexeme ≠ .operator "EI" := by
    intro t' l'' h'
    rw [h.next] at h'
    obtain ⟨ht, -⟩ := Prod.mk.inj h'
    exact Except.ok.inj ht ▸ hne
  obtain ⟨c, hc, -, hreach⟩ := h.reaches.edit (fun _ _ _ _ => hnext)
    (wordEnds_append_imp hword) (standsAlone_append_imp hmark)
  have hbefore : before = c := List.append_cancel_right hc
  exact hbefore ▸ hreach

/-- Anything may be put in the place of a word. -/
theorem edit_word (h : TokenAt ts t us before gap raw after) (hne : t.lexeme ≠ .operator "EI")
    (ht : t.lexeme.isWord = true) (z : List UInt8) :
    Lexer.Reaches (Lexer.ofBytes (before ++ (gap ++ z))) ts ⟨gap ++ z, before.length, false⟩ := by
  obtain ⟨hends, -⟩ := Reading.wordEnds_of_token h.reading ht
  apply h.edit hne
  · exact fun hword => absurd hword hends
  · exact fun hmark => absurd hmark.wordEnds hends

/-- After the gap of a token other bytes are met as if there were no gap. -/
theorem blanks_gap (h : TokenAt ts t us before gap raw after) (hne : t.lexeme ≠ .eof)
    (z : List UInt8) :
    Reading.blanks false (gap ++ z) = gap.length + Reading.blanks false z := by
  have hblanks := h.blanks
  have hbytes := (Reading.width_pos_of_token h.reading hne).2
  match hsplit : raw ++ after, hbytes with
  | b :: rest, _ =>
    rw [hsplit] at hblanks
    exact Reading.blanks_append_of_eq hblanks z

/-- No gap is in front of the token itself. -/
theorem blanks_raw (h : TokenAt ts t us before gap raw after) (hne : t.lexeme ≠ .eof) :
    Reading.blanks false (raw ++ after) = 0 := by
  have := h.blanks_gap hne (raw ++ after)
  rw [h.blanks] at this
  omega

/-- Without a word the token after it comes next. -/
theorem drop_word (h : TokenAt ts t us before gap raw after) (ht : t.lexeme.isWord = true)
    (hoperator : ∀ k, t.lexeme ≠ .operator k) {t' : Token} {us' : List Token}
    (hus : us = t' :: us') (hne : t'.lexeme ≠ .eof) :
    ∃ s l, Lexer.Reaches (Lexer.ofBytes (before ++ (gap ++ after))) (ts ++ [⟨t'.lexeme, s⟩]) l := by
  have heof : t.lexeme ≠ .eof := by
    intro heof
    rw [heof] at ht
    exact absurd ht (by decide)
  have hothers := h.others heof (hoperator "ID")
  rw [hus] at hothers
  obtain ⟨l, l', hrefl, hnext, -⟩ := @Lexer.exists_reaches _ [] _ _ hothers
  cases hrefl
  obtain ⟨g, c, hafter, hblanks, hread, -⟩ := Lexer.of_next_plain hnext
  have hblanks' : Reading.blanks false ((gap ++ g) ++ (c ++ l'.rest)) = (gap ++ g).length := by
    rw [List.append_assoc, ← hafter, h.blanks_gap heof, hblanks, List.length_append]
  have hnext' := Lexer.next_plain hblanks' hread before.length
  rw [List.append_assoc, ← hafter] at hnext'
  exact ⟨_, _, (h.edit_word (hoperator "EI") ht after).trans
    (Lexer.Reaches.step hnext' hne Lexer.Reaches.refl)⟩

/-- The bytes of the token are replaced by a splice at its span. -/
theorem splice_span (h : TokenAt ts t us before gap raw after) (replacement : List UInt8) :
    Mutation.splice (before ++ (gap ++ (raw ++ after))) t.span replacement =
      before ++ (gap ++ (replacement ++ after)) := by
  rw [h.span]
  unfold Mutation.splice
  have htake : (before ++ (gap ++ (raw ++ after))).take (before.length + gap.length) =
      before ++ gap := by
    rw [← List.append_assoc, ← List.length_append, List.take_left]
  have hdrop : (before ++ (gap ++ (raw ++ after))).drop
      (before.length + gap.length + raw.length) = after := by
    rw [← List.append_assoc, ← List.append_assoc, ← List.length_append, ← List.length_append,
      List.drop_left]
  simp [htake, hdrop]

/-- Bytes are put in front of the token by a splice at its start. -/
theorem splice_start (h : TokenAt ts t us before gap raw after) (replacement : List UInt8) :
    Mutation.splice (before ++ (gap ++ (raw ++ after))) ⟨t.span.start, t.span.start⟩ replacement =
      before ++ (gap ++ (replacement ++ (raw ++ after))) := by
  rw [h.span]
  unfold Mutation.splice
  have hsplit : before ++ (gap ++ (raw ++ after)) = (before ++ gap) ++ (raw ++ after) := by simp
  rw [hsplit, ← List.length_append, List.take_left, List.drop_left]
  simp

/-- The stream is cut within the token. -/
theorem take_add (h : TokenAt ts t us before gap raw after) {k : Nat} (hk : k ≤ raw.length) :
    (before ++ (gap ++ (raw ++ after))).take (t.span.start + k) =
      before ++ (gap ++ raw.take k) := by
  rw [h.span]
  have hsplit : before ++ (gap ++ (raw ++ after)) = (before ++ gap) ++ (raw ++ after) := by simp
  rw [hsplit, ← List.length_append, List.take_length_add_append,
    List.take_append_of_le_length hk, List.append_assoc]

end TokenAt

section

open Recognizer

variable {o : Options} {bytes : List UInt8} {tree : ContentStream} {ts us : List Token}
  {t : Token} {keyword : String}

/-! ## Streams with the same beginning -/

/-- What comes after a token of an accepted stream goes on to its end. -/
theorem exists_rest_of_parse (h : ContentStream.parse o bytes = .ok tree)
    (htokens : tokenize bytes = .ok (ts ++ t :: us)) (ht : t.lexeme ≠ .eof) :
    ∃ us' eof, tokenize bytes = .ok (ts ++ t :: us' ++ [eof]) := by
  obtain ⟨all, eof, hall, heof⟩ := ContentStream.exists_tokens_of_parse h
  have hlists : ts ++ t :: us = all ++ [eof] := Except.ok.inj (htokens.symm.trans hall)
  rcases List.eq_nil_or_concat us with rfl | ⟨us', t', rfl⟩
  · obtain ⟨-, hlast⟩ := List.append_inj' hlists rfl
    obtain ⟨rfl, -⟩ := List.cons.inj hlast
    exact absurd heof ht
  · have hlists' : (ts ++ t :: us') ++ [t'] = all ++ [eof] := by simpa using hlists
    obtain ⟨rfl, -⟩ := List.append_inj' hlists' rfl
    exact ⟨us', eof, hall⟩

/-- The phrase of an operator of an accepted stream has been accepted. -/
theorem exists_step_of_parse (h : ContentStream.parse o bytes = .ok tree)
    (htokens : tokenize bytes = .ok (ts ++ t :: us)) (ht : t.lexeme = .operator keyword) :
    ∃ phs pending state pr, ts = phs.flatMap Phrase.tokens ++ pending ∧ NoOperator pending ∧
      Passed o phs state ∧ step o ⟨pending, keyword, t.span⟩ state = .ok pr := by
  have hne : t.lexeme ≠ .eof := by
    rw [ht]
    simp
  obtain ⟨us', eof, hall⟩ := exists_rest_of_parse h htokens hne
  obtain ⟨phs, pending, state, hts, hpending, hpassed, r, hrun⟩ := exists_passed h hall
  rw [ofTokens_operator hpending ht] at hrun
  have hproper : Phrase.Proper ⟨pending, keyword, t.span⟩ := hpending
  obtain ⟨state', hstep, -⟩ := exists_step_of_run hproper hpassed.underway hrun
  exact ⟨phs, pending, state, _, hts, hpending, hpassed, hstep⟩

/-- A stream is rejected at the first phrase that is not accepted. -/
theorem rejects_of_step {phs : List Phrase} {state : RecognizerState} (h : Passed o phs state)
    {pending : List Token} (hpending : NoOperator pending) (ht : t.lexeme = .operator keyword)
    {l : Lexer}
    (hreach : Lexer.Reaches (Lexer.ofBytes bytes) (phs.flatMap Phrase.tokens ++ pending ++ [t]) l)
    {f : Failure} (hstep : step o ⟨pending, keyword, t.span⟩ state = .error f) :
    ContentStream.parse o bytes = .error f.error := by
  have hfeed := Lexer.ofScan_of_reaches hreach
  rw [List.append_assoc] at hfeed
  obtain ⟨left, hrun⟩ := @run_phrase_error _ _ _ (Feed.ofScan (Scan.ofLexer l)) _ hstep
  have hphrase := ofTokens_operator hpending ht [] (Feed.ofScan (Scan.ofLexer l))
  exact h.parse_eq_error hfeed ((congrArg (run o state) hphrase).trans hrun)

/-! ## Unknown operators -/

/-- A stream does not begin with the end of an inline image. -/
theorem keyword_ne_of_step_start {ph : Phrase} {pr : Progress}
    (h : step o ph (start .content) = .ok pr) : ph.keyword ≠ "EI" := by
  intro hkeyword
  obtain ⟨part, hbegins, -⟩ := stepItem_eq_ok_iff.mp h
  have hop : ph.operator? = some ⟨"EI", .inlineImage, .endInlineImage, .inlineData⟩ := by
    unfold Phrase.operator?
    rw [hkeyword]
    decide +kernel
  cases hbegins with
  | known hop' hrole =>
    rw [hop, Option.some.injEq] at hop'
    subst hop'
    have hlevel : (Frame.setting o [⟨.stream, []⟩]).level = .page := rfl
    rw [hlevel] at hrole
    exact absurd hrole (by simp [Operator.role])
  | undefined hop' hw ho =>
    rw [hop] at hop'
    exact absurd hop' (by simp)

/-- The first operator of an accepted stream is not the end of an inline image. -/
theorem first_keyword_ne (h : ContentStream.parse o bytes = .ok tree)
    (htokens : tokenize bytes = .ok (ts ++ t :: us)) (hfirst : NoOperator ts)
    (ht : t.lexeme = .operator keyword) : keyword ≠ "EI" := by
  have hne : t.lexeme ≠ .eof := by
    rw [ht]
    simp
  obtain ⟨us', eof, hall⟩ := exists_rest_of_parse h htokens hne
  obtain ⟨r, hrun⟩ := run_of_parse h hall
  rw [ofTokens_operator hfirst ht] at hrun
  have hproper : Phrase.Proper ⟨ts, keyword, t.span⟩ := hfirst
  obtain ⟨state', hstep, -⟩ := exists_step_of_run hproper underway_start hrun
  exact keyword_ne_of_step_start hstep

/-- No operator of the catalog is spelled so. -/
theorem step_unknown (ph : Phrase) (h : ph.keyword = "Zz") :
    ∃ f, step o ph (start .content) = .error f ∧ f.error.kind = .grammar := by
  have hop : ph.operator? = none := by
    unfold Phrase.operator?
    rw [h]
    decide +kernel
  refine ⟨ph.refused .contentOperator, ?_, rfl⟩
  show stepItem o ph ⟨.stream, []⟩ [] = _
  unfold stepItem
  rw [hop]
  rfl

theorem rejects_unknownOperator (h : ContentStream.parse o bytes = .ok tree)
    (htokens : tokenize bytes = .ok (ts ++ t :: us)) (hfirst : NoOperator ts)
    (ht : t.lexeme = .operator keyword) :
    ∃ e, ContentStream.parse o (Mutation.splice bytes t.span (Byte.ofChars ['Z', 'z'])) =
      .error e ∧ e.kind = .grammar := by
  have hword : t.lexeme.isWord = true := by
    rw [ht]
    rfl
  have hne : t.lexeme ≠ .eof := by
    rw [ht]
    simp
  have hmark : t.lexeme ≠ .operator "EI" := by
    rw [ht]
    simpa using first_keyword_ne h htokens hfirst ht
  obtain ⟨before, gap, raw, after, rfl, hplace⟩ := exists_tokenAt htokens (by simp [ht])
  rw [hplace.splice_span]
  -- the lexer reads the other word after the same tokens
  have hblanks : Reading.blanks false (gap ++ (Byte.ofChars ['Z', 'z'] ++ after)) = gap.length :=
    hplace.blanks_gap hne _
  have hkeyword : Reading.keyword (Utf8.decode (Byte.ofChars ['Z', 'z'])) = .operator "Zz" := by
    decide +kernel
  have hread : Reading.ofBytes (Byte.ofChars ['Z', 'z'] ++ after) =
      .token (.operator "Zz") (Byte.ofChars ['Z', 'z']).length := by
    rw [← hkeyword]
    exact Reading.ofBytes_keyword (by decide) (List.all_eq_true.mp (by decide))
      (Reading.wordEnds_of_token hplace.reading hword).2
  have hnext := Lexer.next_plain hblanks hread before.length
  have hreach := (hplace.edit_word hmark hword _).trans
    (Lexer.Reaches.step hnext (by simp) Lexer.Reaches.refl)
  -- and the recogniser refuses it
  obtain ⟨f, hstep, hkind⟩ := step_unknown ⟨ts, "Zz", _⟩ rfl
  exact ⟨f.error, rejects_of_step passed_nil hfirst rfl hreach hstep, hkind⟩

/-! ## Operands too many or too few -/

/-- A stream is rejected at the first operator whose operands have become more or
    fewer than it takes. -/
theorem rejects_of_count {phs : List Phrase} {state : RecognizerState} (h : Passed o phs state)
    {pending : List Token} {place : Span} {pr : Progress}
    (hstep : step o ⟨pending, keyword, place⟩ state = .ok pr) {op : Operator}
    (hop : Operator.lookup? keyword = some op) {pending' : List Token} {l : Lexer}
    (hreach : Lexer.Reaches (Lexer.ofBytes bytes) (phs.flatMap Phrase.tokens ++ pending' ++ [t]) l)
    (ht : t.lexeme = .operator keyword) (hpending' : NoOperator pending')
    {xs : List (Operand × Span)}
    (hxs : Grammar.AreOperands (min o.maxNesting deepestNesting) pending' xs)
    (hcount : op.arity.acceptsCount xs.length = false) :
    ∃ e, ContentStream.parse o bytes = .error e ∧ e.kind = .arity := by
  have hoperands : Phrase.operands o.maxNesting ⟨pending', keyword, t.span⟩ = .ok xs :=
    Phrase.operands_eq_ok_iff.mpr hxs
  have hkeyword : Phrase.keyword ⟨pending', keyword, t.span⟩ =
      Phrase.keyword ⟨pending, keyword, place⟩ := rfl
  obtain ⟨f, hrefused, hkind⟩ :=
    arity_of_step h.underway.decided hstep hop hkeyword hoperands hcount
  exact ⟨f.error, rejects_of_step h hpending' ht hreach hrefused, hkind⟩

/-- The catalog agrees that the listed operators take no operands. -/
theorem lookup?_of_nullary (h : keyword ∈ Mutation.nullaryKeywords) :
    keyword ≠ "EI" ∧ ∃ op, Operator.lookup? keyword = some op ∧ op.arity = .fixed [] := by
  have hall : ∀ k ∈ Mutation.nullaryKeywords, k ≠ "EI" ∧
      (Operator.lookup? k).map (·.arity) = some (.fixed []) := by
    decide +kernel
  obtain ⟨hne, hlookup⟩ := hall keyword h
  exact ⟨hne, Option.map_eq_some_iff.mp hlookup⟩

/-- The operands in front of an operator that takes none: there is no token. -/
theorem pending_of_nullary {pending : List Token} {xs : List (Operand × Span)} {d : Nat}
    (h : Grammar.AreOperands d pending xs) {op : Operator} (hop : op.arity = .fixed [])
    (hfits : op.arity.Fits (xs.map (·.1))) : pending = [] := by
  have hlength : xs.length = 0 := by
    have := hfits.1
    rw [hop] at this
    simpa [Arity.acceptsCount] using this
  cases h with
  | nil => rfl
  | cons hx hxs => exact absurd hlength (by simp)

theorem rejects_extraOperand (h : ContentStream.parse o bytes = .ok tree)
    (htokens : tokenize bytes = .ok (ts ++ t :: us)) (ht : t.lexeme = .operator keyword)
    (hkeyword : keyword ∈ Mutation.nullaryKeywords) :
    ∃ e, ContentStream.parse o
      (Mutation.splice bytes ⟨t.span.start, t.span.start⟩ (Byte.ofChars ['0', ' '])) = .error e ∧
        e.kind = .arity := by
  obtain ⟨hmark, op, hop, harity⟩ := lookup?_of_nullary hkeyword
  have hword : t.lexeme.isWord = true := by
    rw [ht]
    rfl
  have hne : t.lexeme ≠ .eof := by
    rw [ht]
    simp
  have hmark' : t.lexeme ≠ .operator "EI" := by
    rw [ht]
    simpa using hmark
  -- the phrase of the operator has no tokens before the edit
  obtain ⟨phs, pending, state, pr, rfl, -, hpassed, hstep⟩ := exists_step_of_parse h htokens ht
  obtain ⟨xs, hxs, hfits⟩ := fits_of_step hpassed.underway.decided hstep hop
  obtain rfl := pending_of_nullary (Phrase.operands_eq_ok_iff.mp hxs) harity hfits
  -- and one token after it
  obtain ⟨before, gap, raw, after, rfl, hplace⟩ := exists_tokenAt htokens (by simp [ht])
  rw [hplace.splice_start]
  have hzero : Byte.ofChars ['0', ' '] ++ (raw ++ after) = [0x30] ++ ([0x20] ++ (raw ++ after)) :=
    rfl
  rw [hzero]
  have hblanks : Reading.blanks false (gap ++ ([0x30] ++ ([0x20] ++ (raw ++ after)))) =
      gap.length :=
    hplace.blanks_gap hne _
  have hends : WordEnds ([0x20] ++ (raw ++ after)) := by
    intro b hb
    obtain rfl := Option.some.inj hb
    decide
  obtain ⟨i, place, hnext⟩ := Lexer.next_digit (by decide) hblanks hends before.length
  have hblanks' : Reading.blanks false ([0x20] ++ (raw ++ after)) = [(0x20 : UInt8)].length := by
    show Reading.blanks false (0x20 :: (raw ++ after)) = 1
    rw [Reading.blanks_space, hplace.blanks_raw hne]
  have hnext' := Lexer.next_plain hblanks' hplace.reading (before.length + gap.length + 1)
  have hreach := (hplace.edit_word hmark' hword _).trans
    (Lexer.Reaches.step hnext (by simp) (Lexer.Reaches.step hnext' hne Lexer.Reaches.refl))
  rw [List.append_nil, List.append_cons] at hreach
  have hone : op.arity.acceptsCount 1 = false := by
    rw [harity]
    rfl
  exact rejects_of_count hpassed hstep hop hreach ht (NoOperator.cons (by simp) NoOperator.nil)
    (Grammar.AreOperands.cons (Grammar.IsOperand.scalar rfl) Grammar.AreOperands.nil) hone

/-- The catalog agrees that the listed operators take a fixed number of numbers,
    and at least one. -/
theorem lookup?_of_numeric (h : keyword ∈ Mutation.numericKeywords) :
    ∃ op n, Operator.lookup? keyword = some op ∧ op.arity = .fixed (Operator.numbers (n + 1)) := by
  have hall : ∀ k ∈ Mutation.numericKeywords, ∃ n : Fin 6,
      (Operator.lookup? k).map (·.arity) = some (.fixed (Operator.numbers (n + 1))) := by
    decide +kernel
  obtain ⟨n, hn⟩ := hall keyword h
  obtain ⟨op, hop, harity⟩ := Option.map_eq_some_iff.mp hn
  exact ⟨op, n, hop, harity⟩

theorem isNumber_of_fits {arity : Arity} {n : Nat} (h : arity = .fixed (Operator.numbers n))
    {xs : List Operand} (hfits : arity.Fits xs) : xs.length = n ∧ ∀ x ∈ xs, x.isNumber = true := by
  subst h
  obtain ⟨hcount, hdemands⟩ := hfits
  have hlength : xs.length = n := by
    simpa [Arity.acceptsCount, Operator.numbers] using hcount
  refine ⟨hlength, ?_⟩
  intro x hx
  obtain ⟨i, hi, rfl⟩ := List.getElem_of_mem hx
  have hin : i < n := by omega
  have hdemand : (Arity.fixed (Operator.numbers n)).demand? i xs.length =
      some (.exactly .number) := by
    simp [Arity.demand?, Operator.numbers, hin]
  exact hdemands i _ _ (List.getElem?_eq_getElem hi) hdemand

/-- Every operand takes a token. -/
theorem areOperands_nil {d : Nat} {xs : List (Operand × Span)}
    (h : Grammar.AreOperands d [] xs) : xs = [] := by
  generalize hts : [] = ts at h
  cases h with
  | nil => rfl
  | cons hx hothers =>
    cases hx with
    | scalar hscalar => exact absurd hts (by simp)
    | array ho hitems hc => exact absurd hts (by simp)
    | dictionary ho hentries hc => exact absurd hts (by simp)

/-- A number is one token. -/
theorem areOperands_cons_number {d : Nat} {xs : List (Operand × Span)}
    (h : Grammar.AreOperands d (t :: us) xs) (hxs : ∀ x ∈ xs, x.1.isNumber = true) :
    ∃ x xs', xs = (x, t.span) :: xs' ∧ t.lexeme.scalar? = some x ∧
      Grammar.AreOperands d us xs' := by
  generalize hts : t :: us = ts at h
  cases h with
  | nil => exact absurd hts (by simp)
  | cons hx hothers =>
    have hnumber := hxs _ List.mem_cons_self
    cases hx with
    | scalar hscalar =>
      obtain ⟨rfl, rfl⟩ := List.cons.inj hts
      exact ⟨_, _, rfl, hscalar, hothers⟩
    | array ho hitems hc => exact absurd hnumber (by simp [Operand.isNumber])
    | dictionary ho hentries hc => exact absurd hnumber (by simp [Operand.isNumber])

/-- Without the last token of some numbers the last number is missing. -/
theorem areOperands_concat_number {d : Nat} {xs : List (Operand × Span)}
    (h : Grammar.AreOperands d (ts ++ [t]) xs) (hxs : ∀ x ∈ xs, x.1.isNumber = true) :
    ∃ xs' x, xs = xs' ++ [(x, t.span)] ∧ t.lexeme.scalar? = some x ∧
      Grammar.AreOperands d ts xs' := by
  induction ts generalizing xs with
  | nil =>
    obtain ⟨x, xs', rfl, hx, hothers⟩ := areOperands_cons_number h hxs
    obtain rfl := areOperands_nil hothers
    exact ⟨[], x, rfl, hx, Grammar.AreOperands.nil⟩
  | cons t' ts ih =>
    obtain ⟨x', xs', rfl, hx', hothers⟩ := areOperands_cons_number h hxs
    obtain ⟨xs'', x, rfl, hx, hts⟩ := ih hothers fun y hy => hxs y (List.mem_cons_of_mem _ hy)
    exact ⟨(x', t'.span) :: xs'', x, rfl, hx,
      Grammar.AreOperands.cons (Grammar.IsOperand.scalar hx') hts⟩

theorem isWord_of_number {lexeme : Lexeme} {x : Operand} (h : lexeme.scalar? = some x)
    (hx : x.isNumber = true) : lexeme.isWord = true ∧ ∀ k, lexeme ≠ .operator k := by
  cases Lexeme.denotes_of_scalar? h with
  | integer i => exact ⟨rfl, by simp⟩
  | real r => exact ⟨rfl, by simp⟩
  | _ => exact absurd hx Bool.false_ne_true

/-- Without the last of the numbers in front of an operator one is missing. -/
theorem rejects_dropOperand (h : ContentStream.parse o bytes = .ok tree) {t' : Token}
    (htokens : tokenize bytes = .ok (ts ++ t :: t' :: us)) (ht' : t'.lexeme = .operator keyword)
    (hkeyword : keyword ∈ Mutation.numericKeywords) :
    ∃ e, ContentStream.parse o (Mutation.splice bytes t.span []) = .error e ∧
      e.kind = .arity := by
  obtain ⟨op, n, hop, harity⟩ := lookup?_of_numeric hkeyword
  have htokens' : tokenize bytes = .ok ((ts ++ [t]) ++ t' :: us) := by simpa using htokens
  obtain ⟨phs, pending, state, pr, hts, hpending, hpassed, hstep⟩ :=
    exists_step_of_parse h htokens' ht'
  obtain ⟨xs, hxs, hfits⟩ := fits_of_step hpassed.underway.decided hstep hop
  obtain ⟨hlength, hnumbers⟩ := isNumber_of_fits harity hfits
  rw [List.length_map] at hlength
  have hnumbers' : ∀ x ∈ xs, x.1.isNumber = true := fun x hx =>
    hnumbers x.1 (List.mem_map_of_mem hx)
  have hxs' := Phrase.operands_eq_ok_iff.mp hxs
  -- the token that is dropped is the last pending one
  rcases List.eq_nil_or_concat pending with rfl | ⟨pending', last, rfl⟩
  · obtain rfl := areOperands_nil hxs'
    exact absurd hlength (by simp)
  have hts' : ts ++ [t] = (phs.flatMap Phrase.tokens ++ pending') ++ [last] := by
    simpa using hts
  obtain ⟨rfl, hlast⟩ := List.append_inj' hts' rfl
  obtain ⟨rfl, -⟩ := List.cons.inj hlast
  obtain ⟨ys, y, rfl, hy, hys⟩ := areOperands_concat_number (by simpa using hxs') hnumbers'
  obtain ⟨hword, hoperator⟩ := isWord_of_number hy (hnumbers' (y, t.span) (by simp))
  have hne : t.lexeme ≠ .eof := by
    intro heof
    rw [heof] at hword
    exact absurd hword (by decide)
  have hdata : ∀ d, t.lexeme ≠ .inlineData d := by
    intro d hd
    rw [hd] at hword
    exact absurd hword Bool.false_ne_true
  obtain ⟨before, gap, raw, after, rfl, hplace⟩ := exists_tokenAt htokens hdata
  rw [hplace.splice_span]
  -- the operator comes next now, and has one operand less
  have hne' : t'.lexeme ≠ .eof := by
    rw [ht']
    simp
  obtain ⟨place, l, hreach⟩ := hplace.drop_word hword hoperator rfl hne'
  have hcount : op.arity.acceptsCount ys.length = false := by
    rw [harity]
    simp only [List.length_append, List.length_singleton] at hlength
    simp only [Arity.acceptsCount, Operator.numbers, List.length_replicate, beq_eq_false_iff_ne]
    omega
  have hpending' : NoOperator pending' := by
    rw [List.concat_eq_append] at hpending
    exact hpending.of_append_left
  exact rejects_of_count hpassed hstep hop hreach ht' hpending' hys hcount

/-! ## Strings that are cut -/

/-- Tokens of an accepted stream are not refused as operands, wherever it is
    interrupted. -/
theorem not_refused_of_run {state : RecognizerState} (hstate : Underway o state)
    {pending : List Token} (hpending : NoOperator pending) {eof : Token} {r : Node × Feed}
    (hrun : run o state (Feed.ofTokens (pending ++ us) (.finish [] eof)) = .ok r)
    (e : ParseError) (left : List Token) :
    OperandReader.start.run o.maxNesting pending ≠ .refused e left := by
  obtain ⟨phs, others, hsplit, hphs, hothers⟩ := exists_phrases (pending ++ us)
  rw [hsplit, Feed.ofTokens_append, Feed.ofTokens_phrases hphs, Feed.ofTokens_pending hothers] at hrun
  match phs with
  | [] =>
    -- no operator follows, so there are no tokens
    obtain ⟨hnil, -⟩ := grammar_of_finish hrun (List.cons_ne_nil eof []) eof
    have hnil' : pending ++ us = [] := by
      rw [hsplit]
      simpa using hnil
    rw [(List.append_eq_nil_iff.mp hnil').1]
    simp [OperandReader.run, OperandReader.start, OperandReader.isIdle]
  | ph :: phs =>
    obtain ⟨state', hstep, -⟩ := exists_step_of_run (hphs ph (by simp)) hstate hrun
    obtain ⟨xs, hxs⟩ := operands_of_step hstate.decided hstep
    have hxs' := OperandReader.run_start_eq_complete_iff.mpr (Phrase.operands_eq_ok_iff.mp hxs)
    rw [List.flatMap_cons, List.append_assoc, Phrase.tokens_append] at hsplit
    intro hrefused
    rcases List.append_eq_append_iff.mp hsplit with ⟨vs, hph, -⟩ | ⟨vs, rfl, hvs⟩
    · rw [hph, OperandReader.run_append_of_refused hrefused] at hxs'
      exact absurd hxs' (by simp)
    · cases vs with
      | nil =>
        rw [List.append_nil, hxs'] at hrefused
        exact absurd hrefused (by simp)
      | cons v vs =>
        obtain ⟨rfl, -⟩ := List.cons.inj hvs
        exact hpending ph.token (by simp) ph.keyword rfl

/-- A stream is rejected at the first fault. -/
theorem rejects_of_fault {phs : List Phrase} {state : RecognizerState} (h : Passed o phs state)
    {pending : List Token} (hpending : NoOperator pending)
    (hrefused : ∀ e left, OperandReader.start.run o.maxNesting pending ≠ .refused e left)
    {l l' : Lexer} {fault : LexicalError}
    (hreach : Lexer.Reaches (Lexer.ofBytes bytes) (phs.flatMap Phrase.tokens ++ pending) l)
    (hnext : l.next = (.error fault, l')) :
    ContentStream.parse o bytes = .error (.lexical fault) := by
  have hfeed := Lexer.ofScan_of_reaches hreach
  have hfault : (∃ rest, Feed.ofTokens pending (Feed.ofScan (Scan.ofLexer l)) =
      .fault pending fault rest) ∨
      Feed.ofTokens pending (Feed.ofScan (Scan.ofLexer l)) = .stuck pending fault := by
    rw [Feed.ofTokens_pending hpending]
    rcases Lexer.ofLexer_error hnext with hscan | hscan
    · exact .inl ⟨Feed.ofScan (Scan.ofLexer l'), by simp [hscan, Feed.ofScan, Feed.prepend]⟩
    · exact .inr (by simp [hscan, Feed.ofScan, Feed.prepend])
  obtain ⟨left, hrun⟩ := @lexical_of_fault o state pending fault _ hfault hrefused
  exact h.parse_eq_error hfeed hrun

theorem rejects_truncateString (h : ContentStream.parse o bytes = .ok tree)
    (htokens : tokenize bytes = .ok (ts ++ t :: us)) {value : List UInt8}
    (ht : t.lexeme = .literal value) :
    ∃ e, ContentStream.parse o (bytes.take (min (t.span.start + 2) (t.span.stop - 1))) =
      .error e ∧ e.kind = .lexical := by
  have hne : t.lexeme ≠ .eof := by
    rw [ht]
    simp
  obtain ⟨us', eof, hall⟩ := exists_rest_of_parse h htokens hne
  obtain ⟨phs, pending, state, rfl, hpending, hpassed, r, hrun⟩ := exists_passed h hall
  have hrefused := not_refused_of_run hpassed.underway hpending hrun
  obtain ⟨before, gap, raw, after, rfl, hplace⟩ := exists_tokenAt htokens (by simp [ht])
  -- the parenthesis stays, and not all of what its end is found in
  have hread := hplace.reading
  rw [ht] at hread
  obtain ⟨raw', rfl, hpos, hcontents⟩ := Reading.exists_contents_of_literal hread
  have hcut : min (t.span.start + 2) (t.span.stop - 1) =
      t.span.start + (min 1 (raw'.length - 1) + 1) := by
    rw [hplace.span, List.length_cons]
    dsimp only
    omega
  rw [hcut, hplace.take_add (by rw [List.length_cons]; omega), List.take_succ_cons]
  have hk : min 1 (raw'.length - 1) < raw'.length := by omega
  have hfault := Reading.literal_take hcontents hk
  have hmark : t.lexeme ≠ .operator "EI" := by
    rw [ht]
    simp
  have hreach := hplace.edit hmark
    (z := Byte.ofChar '(' :: raw'.take (min 1 (raw'.length - 1)))
    (fun hends b hb => hends b hb) (fun hends b hb => hends b hb)
  have hblanks := hplace.blanks_gap hne (Byte.ofChar '(' :: raw'.take (min 1 (raw'.length - 1)))
  have hparen : Reading.blanks false (Byte.ofChar '(' :: raw'.take (min 1 (raw'.length - 1))) = 0 :=
    rfl
  rw [hparen, Nat.add_zero] at hblanks
  obtain ⟨fault, l', hnext⟩ := Lexer.next_fault hblanks hfault before.length
  exact ⟨.lexical fault, rejects_of_fault hpassed hpending hrefused hreach hnext, rfl⟩

/-! ## Operands without an operator -/

/-- A gap, a line feed and three digits are read as three integers. -/
theorem exists_reaches_digits {gap : List UInt8}
    (h : Reading.blanks false gap = gap.length) (position : Nat) :
    ∃ a b c p, NoOperator [a, b, c] ∧ Lexer.Reaches
      ⟨gap ++ Byte.ofChars ['\n', '1', ' ', '2', ' ', '3'], position, false⟩ [a, b, c]
      ⟨[], p, false⟩ := by
  have hends : ∀ r, WordEnds (0x20 :: r) := by
    intro r b hb
    obtain rfl := Option.some.inj hb
    decide
  have hblanks : Reading.blanks false ((gap ++ [0x0A]) ++ ([0x31] ++ [0x20, 0x32, 0x20, 0x33])) =
      (gap ++ [0x0A]).length := by
    rw [List.append_assoc, List.length_append]
    exact Reading.blanks_append_lineFeed h [0x31, 0x20, 0x32, 0x20, 0x33]
  obtain ⟨i, s, hfirst⟩ := Lexer.next_digit (by decide) hblanks (hends _) position
  obtain ⟨j, s', hsecond⟩ := Lexer.next_digit (g := [0x20]) (d := 0x32) (by decide) rfl
    (hends [0x33]) (position + (gap ++ [0x0A]).length + 1)
  obtain ⟨k, s'', hthird⟩ := Lexer.next_digit (g := [0x20]) (d := 0x33) (by decide) rfl
    wordEnds_nil (position + (gap ++ [0x0A]).length + 1 + [(0x20 : UInt8)].length + 1)
  rw [List.append_assoc] at hfirst
  refine ⟨⟨.integer i, s⟩, ⟨.integer j, s'⟩, ⟨.integer k, s''⟩, _, ?_,
    Lexer.Reaches.step hfirst (by simp) (Lexer.Reaches.step hsecond (by simp)
      (Lexer.Reaches.step hthird (by simp) Lexer.Reaches.refl))⟩
  exact NoOperator.cons (by simp) (NoOperator.cons (by simp)
    (NoOperator.cons (by simp) NoOperator.nil))

theorem rejects_trailingOperands (h : ContentStream.parse o bytes = .ok tree) :
    ∃ e, ContentStream.parse o
      (bytes ++ Byte.ofChars ['\n', '1', ' ', '2', ' ', '3']) = .error e ∧ e.kind = .grammar := by
  obtain ⟨all, eof, htokens, heof⟩ := ContentStream.exists_tokens_of_parse h
  have hall : tokenize bytes = .ok (all ++ [] ++ [eof]) := by simpa using htokens
  obtain ⟨phs, pending, state, rfl, hpending, hpassed, r, hrun⟩ := exists_passed h hall
  obtain ⟨before, gap, raw, after, rfl, hplace⟩ := exists_tokenAt htokens (by simp [heof])
  -- the end of the stream has no bytes
  have hread := hplace.reading
  have hnil : raw ++ after = [] := by
    cases hbytes : raw ++ after with
    | nil => rfl
    | cons b rest =>
      rw [hbytes] at hread
      exact absurd heof (Reading.start_of_token hread).2.2
  obtain ⟨rfl, rfl⟩ := List.append_eq_nil_iff.mp hnil
  have hblanks := hplace.blanks
  rw [List.append_nil, List.append_nil] at hblanks
  have hmark : eof.lexeme ≠ .operator "EI" := by
    rw [heof]
    simp
  have hfeedLine : ∀ b, [(0x0A : UInt8), 0x31, 0x20, 0x32, 0x20, 0x33].head? = some b →
      Byte.isBlank b = true := by
    intro b hb
    obtain rfl := Option.some.inj hb
    decide
  have hbefore := hplace.edit hmark
    (fun _ => StandsAlone.wordEnds hfeedLine) (fun _ => hfeedLine)
  obtain ⟨a, b, c, p, hdigits, hreach⟩ := exists_reaches_digits hblanks before.length
  have hfeed := Lexer.ofScan_of_reaches (hbefore.trans hreach)
  have hend : Lexer.next ⟨[], p, false⟩ = (.ok ⟨.eof, ⟨p, p⟩⟩, ⟨[], p, false⟩) := rfl
  rw [Lexer.ofLexer_finish hend rfl, List.append_assoc] at hfeed
  -- the integers are pending at the end of the stream
  have hpending' : NoOperator (pending ++ [a, b, c]) := hpending.append hdigits
  rw [Feed.ofTokens_pending (by simpa using hpending)] at hrun
  obtain ⟨-, e, left, he, hkind⟩ := grammar_of_finish hrun
    (show pending ++ [a, b, c] ≠ [] by simp) ⟨.eof, ⟨p, p⟩⟩
  have hfinish : Feed.ofTokens (pending ++ [a, b, c]) (Feed.ofScan (.finish ⟨.eof, ⟨p, p⟩⟩)) =
      .finish (pending ++ [a, b, c]) ⟨.eof, ⟨p, p⟩⟩ := by
    rw [Feed.ofTokens_pending hpending']
    simp [Feed.ofScan, Feed.prepend]
  refine ⟨e, ?_, hkind⟩
  have hbytes : before ++ (gap ++ ([] ++ [])) ++ Byte.ofChars ['\n', '1', ' ', '2', ' ', '3'] =
      before ++ (gap ++ Byte.ofChars ['\n', '1', ' ', '2', ' ', '3']) := by
    simp
  rw [hbytes]
  exact hpassed.parse_eq_error hfeed ((congrArg (run o state) hfinish).trans he)

/-! ## All mutations -/

theorem tokenBefore?_eq_some {p : Token → Bool} {all : List Token}
    (h : Mutation.tokenBefore? p all = some t) :
    ∃ ts t' us, all = ts ++ t :: t' :: us ∧ p t' = true := by
  fun_induction Mutation.tokenBefore? p all with
  | case1 a b rest ha => exact absurd h (by simp)
  | case2 a b rest ha hb =>
    obtain rfl := Option.some.inj h
    exact ⟨[], b, rest, rfl, hb⟩
  | case3 a b rest ha hb ih =>
    obtain ⟨ts, t', us, hsplit, ht'⟩ := ih h
    exact ⟨a :: ts, t', us, by rw [hsplit, List.cons_append], ht'⟩
  | case4 ts hts => exact absurd h (by simp)

theorem exists_keyword_of_isOneOf {keywords : List String}
    (h : Mutation.isOneOf keywords t = true) :
    ∃ keyword, t.lexeme = .operator keyword ∧ keyword ∈ keywords := by
  unfold Mutation.isOneOf at h
  split at h
  · next k hk => exact ⟨k, hk, by simpa using h⟩
  · exact absurd h (by simp)

/-- **Mutations**: a mutation of an accepted stream is rejected, with an error of the
    kind that it promises. -/
theorem rejects_mutated {m : Mutation} {mutated : List UInt8}
    (h : ContentStream.parse o bytes = .ok tree) (hm : m.mutate? bytes = some mutated) :
    ∃ e, ContentStream.parse o mutated = .error e ∧ e.kind = m.promisedError := by
  obtain ⟨all, eof, htokens, -⟩ := ContentStream.exists_tokens_of_parse h
  unfold Mutation.mutate? at hm
  rw [htokens] at hm
  cases m with
  | dropOperand =>
    obtain ⟨t, hbefore, rfl⟩ := Option.map_eq_some_iff.mp hm
    obtain ⟨ts, t', us, hall, ht'⟩ := tokenBefore?_eq_some hbefore
    obtain ⟨keyword, hoperator, hkeyword⟩ := exists_keyword_of_isOneOf ht'
    exact rejects_dropOperand h (hall ▸ htokens) hoperator hkeyword
  | extraOperand =>
    obtain ⟨t, hfind, rfl⟩ := Option.map_eq_some_iff.mp hm
    obtain ⟨ht, ts, us, hall, -⟩ := List.find?_eq_some_iff_append.mp hfind
    obtain ⟨keyword, hoperator, hkeyword⟩ := exists_keyword_of_isOneOf ht
    exact rejects_extraOperand h (hall ▸ htokens) hoperator hkeyword
  | unknownOperator =>
    obtain ⟨t, hfind, rfl⟩ := Option.map_eq_some_iff.mp hm
    obtain ⟨ht, ts, us, hall, hnone⟩ := List.find?_eq_some_iff_append.mp hfind
    have hfirst : NoOperator ts := by
      intro u hu keyword hu'
      have := hnone u hu
      rw [hu'] at this
      exact absurd this (by simp)
    split at ht
    · next keyword hoperator => exact rejects_unknownOperator h (hall ▸ htokens) hfirst hoperator
    · exact absurd ht (by decide)
  | truncateString =>
    obtain ⟨t, hfind, rfl⟩ := Option.map_eq_some_iff.mp hm
    obtain ⟨ht, ts, us, hall, -⟩ := List.find?_eq_some_iff_append.mp hfind
    split at ht
    · next value hliteral => exact rejects_truncateString h (hall ▸ htokens) hliteral
    · exact absurd ht (by decide)
  | trailingOperands =>
    obtain rfl := Option.some.inj hm
    exact rejects_trailingOperands h

/-- The last operand of the first drawing operator of a line is dropped. -/
theorem rejects_mutated_line : ∃ tree mutated e,
    ContentStream.parse Profile.default.options (Byte.ofChars "q 0 0 m 9 9 l S Q".toList) =
      .ok tree ∧
    Mutation.dropOperand.mutate? (Byte.ofChars "q 0 0 m 9 9 l S Q".toList) = some mutated ∧
    ContentStream.parse Profile.default.options mutated = .error e ∧ e.kind = .arity := by
  have hparse : (ContentStream.parse Profile.default.options
      (Byte.ofChars "q 0 0 m 9 9 l S Q".toList)).isOk = true := by
    decide +kernel
  have hmutate : Mutation.dropOperand.mutate? (Byte.ofChars "q 0 0 m 9 9 l S Q".toList) =
      some (Byte.ofChars "q 0  m 9 9 l S Q".toList) := by
    decide +kernel
  match h : ContentStream.parse Profile.default.options
      (Byte.ofChars "q 0 0 m 9 9 l S Q".toList) with
  | .ok tree =>
    obtain ⟨e, he, hkind⟩ := rejects_mutated h hmutate
    exact ⟨tree, _, e, rfl, hmutate, he, hkind⟩
  | .error e =>
    rw [h] at hparse
    exact absurd hparse Bool.false_ne_true

end

end PageContent
