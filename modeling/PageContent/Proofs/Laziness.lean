import PageContent.Proofs.Sessions
import PageContent.Proofs.Blame
import PageContent.Proofs.Calls

/-! # Reading tokens when they are needed

    The descent reads no token before it looks at it. It finds what it would find
    if all tokens of the stream had been read before.

    * **First tokens**: the tokens of a stream lie in it in order, up to its end or its
      first fault, and end where this fault lies or in front of it.
    * **All tokens at once**: with all tokens of a stream in its buffer the descent
      has the same ahead, and never asks the lexer.
    * **Which error comes first**: a fault is reported as it is, unless an error that
      lies in front of it has been found before.
-/

namespace PageContent

/-! ## The first tokens of a stream -/

/-- The tokens that the lexer reads first. Only the last one can be the end of the
    stream. -/
inductive ReadFirst (bytes : List UInt8) : List Token → Prop
  | tokens {ts : List Token} {l : Lexer} (h : Lexer.Reaches (Lexer.ofBytes bytes) ts l) :
      ReadFirst bytes ts
  | all {ts : List Token} {l l' : Lexer} (h : Lexer.Reaches (Lexer.ofBytes bytes) ts l)
      (heof : l.next = (.ok ⟨.eof, ⟨bytes.length, bytes.length⟩⟩, l')) :
      ReadFirst bytes (ts ++ [⟨.eof, ⟨bytes.length, bytes.length⟩⟩])

namespace Lexer

variable {l l' : Lexer}

/-- The end of the stream is not among the tokens that are reached. -/
theorem Reaches.ne_eof {ts : List Token} (h : Reaches l ts l') :
    ∀ t ∈ ts, t.lexeme ≠ .eof := by
  induction h with
  | refl => exact List.forall_mem_nil _
  | step hnext hne hrest ih => exact List.forall_mem_cons.mpr ⟨hne, ih⟩

/-- A fault is not found before the lexer. -/
theorem position_le_of_error {e : LexicalError} (h : l.next = (.error e, l')) :
    l.position ≤ e.position := by
  obtain ⟨f, offset, passed, -, rfl, -⟩ := of_next_error h
  show l.position ≤ l.position + l.gap + offset
  omega

/-- The first fault of a scan is found after some tokens. -/
theorem exists_reaches_fault {e : LexicalError} (h : (Scan.ofLexer l).tokens = .error e) :
    ∃ ts l₁ l₂, Reaches l ts l₁ ∧ l₁.next = (.error e, l₂) := by
  fun_induction Scan.ofLexer l with
  | case1 l t l' hnext heof => exact absurd h (by simp [Scan.tokens])
  | case2 l t l' hnext hne _ ih =>
    have hrest : (Scan.ofLexer l').tokens = .error e := by
      rw [Scan.tokens] at h
      cases hrest : (Scan.ofLexer l').tokens with
      | ok ts => exact absurd h (by simp [hrest])
      | error e' =>
        rw [hrest] at h
        exact congrArg Except.error (Except.error.inj h)
    obtain ⟨ts, l₁, l₂, hreach, hfault⟩ := ih hrest
    exact ⟨t :: ts, l₁, l₂, Reaches.step hnext hne hreach, hfault⟩
  | case3 l e' l' hnext hlt ih =>
    obtain rfl := Except.error.inj h
    exact ⟨[], l, l', Reaches.refl, hnext⟩
  | case4 l e' l' hnext hge =>
    obtain rfl := Except.error.inj h
    exact ⟨[], l, l', Reaches.refl, hnext⟩

end Lexer

namespace Feed

variable {bytes : List UInt8}

/-- The first fault of a stream comes after the tokens in front of it. -/
theorem exists_reaches_of_tokenize {e : LexicalError} (h : tokenize bytes = .error e) :
    (ofBytes bytes).fault? = some e ∧ ∃ l l',
      Lexer.Reaches (Lexer.ofBytes bytes) (ofBytes bytes).tokens l ∧ l.next = (.error e, l') := by
  obtain ⟨ts, l, l', hreach, hfault⟩ := Lexer.exists_reaches_fault h
  have hfeed : ofBytes bytes = ofTokens ts (ofScan (.ofLexer l)) := Lexer.ofScan_of_reaches hreach
  have hmet : (ofScan (.ofLexer l)).fault? = some e ∧ (ofScan (.ofLexer l)).tokens = [] := by
    rcases Lexer.ofLexer_error hfault with hscan | hscan
    · rw [hscan]
      exact ⟨rfl, rfl⟩
    · rw [hscan]
      exact ⟨rfl, rfl⟩
  rw [hfeed, fault?_ofTokens, tokens_ofTokens, hmet.2, List.append_nil]
  exact ⟨hmet.1, l, l', hreach, hfault⟩

/-- Tokens that are read one after the other into a buffer are in front of its feed. -/
theorem pushAll_ofTokens {ts : List Token} (h : ∀ t ∈ ts, t.lexeme ≠ .eof) (feed : Feed) :
    pushAll ts feed = ofTokens ts feed := by
  induction ts with
  | nil => rfl
  | cons t ts ih =>
    obtain ⟨ht, hts⟩ := List.forall_mem_cons.mp h
    show push t (pushAll ts feed) = cons t (ofTokens ts feed)
    rw [push, if_neg ht, ih hts]

/-- All tokens of a stream are its feed, whatever comes after them. Only the last one
    is the end of the stream, and there is no fault. -/
theorem pushAll_of_tokenize {ts : List Token} (h : tokenize bytes = .ok ts) :
    (∀ feed, pushAll ts feed = ofBytes bytes) ∧ (ofBytes bytes).fault? = none ∧
      ∀ t ∈ ts.dropLast, t.lexeme ≠ .eof := by
  rcases ofScan_ofLexer (Lexer.ofBytes bytes) with
    ⟨us, eof, htokens, heof, hfeed⟩ | ⟨e, -, -, htokens, -⟩
  · obtain rfl : ts = us ++ [eof] := Except.ok.inj (h.symm.trans htokens)
    obtain ⟨l, l', hreach, -⟩ := Lexer.exists_reaches h
    have hstream : ofBytes bytes = ofTokens us (.finish [] eof) := hfeed
    refine ⟨?_, ?_, ?_⟩
    · intro feed
      have hend : push eof feed = .finish [] eof := if_pos heof
      rw [hstream, pushAll_append, pushAll_ofTokens hreach.ne_eof]
      exact congrArg (ofTokens us) hend
    · rw [hstream, fault?_ofTokens]
      rfl
    · rw [List.dropLast_concat]
      exact hreach.ne_eof
  · exact absurd (h.symm.trans htokens) (by simp)

/-- The first fault of a feed is what there is in place of a token list. -/
theorem tokenize_of_fault? {e : LexicalError} (h : (ofBytes bytes).fault? = some e) :
    tokenize bytes = .error e := by
  cases htokens : tokenize bytes with
  | ok ts =>
    obtain ⟨-, hnone, -⟩ := pushAll_of_tokenize htokens
    exact absurd (h.symm.trans hnone) (by simp)
  | error e' =>
    obtain ⟨hsome, -⟩ := exists_reaches_of_tokenize htokens
    exact congrArg Except.error (Option.some.inj (hsome.symm.trans h))

/-- The tokens of a feed are the first ones of its stream. -/
theorem readFirst_tokens (bytes : List UInt8) : ReadFirst bytes (ofBytes bytes).tokens := by
  cases htokens : tokenize bytes with
  | error e =>
    obtain ⟨-, l, l', hreach, -⟩ := exists_reaches_of_tokenize htokens
    exact .tokens hreach
  | ok ts =>
    obtain ⟨⟨us, rfl, -⟩, -⟩ := tokenize_segmentation htokens
    obtain ⟨l, l', hreach, hnext, -⟩ := Lexer.exists_reaches htokens
    rw [ofBytes_of_tokenize htokens, tokens_ofTokens]
    exact .all hreach hnext

end Feed

namespace ReadFirst

variable {bytes : List UInt8} {ts : List Token}

/-- The first tokens lie in the stream. -/
theorem stop_le (h : ReadFirst bytes ts) : ∀ t ∈ ts, t.span.stop ≤ bytes.length := by
  have hreached {us : List Token} {l : Lexer} (hreach : (Lexer.ofBytes bytes).Reaches us l) :
      ∀ t ∈ us, t.span.stop ≤ bytes.length := by
    intro t ht
    have hbetween := hreach.between t ht
    have hlength := hreach.position_add_length
    omega
  cases h with
  | tokens hreach => exact hreached hreach
  | all hreach heof =>
    intro t ht
    rcases List.mem_append.mp ht with ht | ht
    · exact hreached hreach t ht
    · obtain rfl := List.mem_singleton.mp ht
      exact Nat.le_refl _

/-- The first tokens are in order. -/
theorem inOrder (h : ReadFirst bytes ts) : InOrder ts := by
  cases h with
  | tokens hreach => exact hreach.inOrder
  | all hreach heof =>
    refine ⟨?_, List.pairwise_append.mpr ⟨hreach.inOrder.apart, List.pairwise_singleton _ _, ?_⟩⟩
    · intro t ht
      rcases List.mem_append.mp ht with ht | ht
      · exact hreach.inOrder.forward t ht
      · obtain rfl := List.mem_singleton.mp ht
        exact Nat.le_refl _
    · intro t ht u hu
      obtain rfl := List.mem_singleton.mp hu
      exact (tokens hreach).stop_le t ht

end ReadFirst

/-! ## All tokens at once -/

namespace Descent

variable {o : Options} {bytes : List UInt8}

/-- The start of a stream of which all tokens have been read, with a lexer that may
    find anything. -/
def loaded (o : Options) (ts : List Token) (l : Lexer) (log : ErrorLog) : Descent :=
  { start o [] log with lexer := l, buffer := ts }

theorem inside_loaded {ts : List Token} (h : ∀ t ∈ ts.dropLast, t.lexeme ≠ .eof) (l : Lexer)
    (log : ErrorLog) : Inside (loaded o ts l log) o [] := by
  refine ⟨⟨h, Nat.zero_le _, ?_, rfl, rfl⟩, rfl, rfl⟩
  exact List.forall_mem_nil _

/-- The content is what the parse of a stream finds, wherever the tokens of the stream
    are. -/
theorem exists_answer_content {d : Descent} (h : Inside d o [])
    (hfeed : d.feed = Feed.ofBytes bytes) :
    ∃ d', d.answer (.part .content) = some ((ContentStream.parse o bytes).map (·.root), d') := by
  have hinside : Inside d d.options [] := by
    rw [h.options]
    exact h
  obtain ⟨a, d', hanswered⟩ := exists_answered hinside (.part .content)
  have hparse : (ContentStream.parse o bytes).map (·.root) = a := by
    have hsession : (d.session.answer (.part .content)).1 = a := by
      rw [hanswered.session]
    rw [← hsession]
    unfold ContentStream.parse Session.answer Session.find session
    dsimp only
    rw [h.options, hfeed]
    cases Recognizer.read o .content (Feed.ofBytes bytes) <;> rfl
  rw [hparse]
  exact ⟨d', hanswered.answer⟩

end Descent

namespace ContentStream

variable {o : Options} {bytes : List UInt8}

/-! ## Which error comes first -/

/-- The error of a parse is the first fault of the stream, or it is about tokens in
    front of that fault. -/
theorem accounts_parse {e : ParseError} (h : parse o bytes = .error e) :
    (Feed.ofBytes bytes).Accounts [] e := by
  unfold parse at h
  split at h
  · exact absurd h (by simp)
  · next e' left hread =>
    obtain rfl := Except.error.inj h
    exact Recognizer.accounts_read endsPhrase_nil (Feed.readFirst_tokens bytes).inOrder hread

/-- **Lexical errors** are those of the token list. -/
theorem tokenize_of_lexical {e : LexicalError} (h : parse o bytes = .error (.lexical e)) :
    tokenize bytes = .error e := by
  rcases accounts_parse h with ⟨fault, heq, hfault⟩ | hlies
  · rw [ParseError.lexical.inj heq]
    exact Feed.tokenize_of_fault? hfault
  · exact absurd rfl hlies.kind_ne

/-- **Faults** are reported, unless there is an error in front of them. -/
theorem exists_error_of_tokenize {e : LexicalError} (h : tokenize bytes = .error e) :
    ∃ e', parse o bytes = .error e' ∧
      (e' = .lexical e ∨
        e'.kind ≠ .lexical ∧ e'.span.stop ≤ (ParseError.lexical e).offset) := by
  cases hparse : parse o bytes with
  | ok s =>
    obtain ⟨ts, eof, htokens, -⟩ := exists_tokens_of_parse hparse
    exact absurd (h.symm.trans htokens) (by simp)
  | error e' =>
    refine ⟨e', rfl, ?_⟩
    obtain ⟨hsome, l, l', hreach, hnext⟩ := Feed.exists_reaches_of_tokenize h
    rcases accounts_parse hparse with ⟨fault, rfl, hfault⟩ | hlies
    · exact .inl (congrArg ParseError.lexical (Option.some.inj (hfault.symm.trans hsome)))
    · -- the error ends with a token, and the fault is found after this one
      obtain ⟨t, ht, heq⟩ := hlies.exists_stop
      have hstop := (hreach.between t ht).2.2
      have hposition := Lexer.position_le_of_error hnext
      refine .inr ⟨hlies.kind_ne, ?_⟩
      rw [← heq]
      exact Nat.le_trans hstop hposition

/-- **Reading tokens when they are needed** makes no difference to a parse. It is
    accepted only if the stream has a token list; a lexical error is that of the token
    list; where there is no token list, its error is reported unless one that ends in
    front of it has been found before; and where there is one, the parse is what the
    descent finds that has all tokens in its buffer, whatever its lexer would find. -/
theorem parse_on_demand (o : Options) (bytes : List UInt8) (log : ErrorLog) :
    (∃ d', (Descent.start o bytes log).answer (.part .content) =
        some ((parse o bytes).map (·.root), d')) ∧
      (∀ s, parse o bytes = .ok s → ∃ ts, tokenize bytes = .ok ts) ∧
      (∀ e, parse o bytes = .error (.lexical e) → tokenize bytes = .error e) ∧
      (∀ e, tokenize bytes = .error e → ∃ e', parse o bytes = .error e' ∧
        (e' = .lexical e ∨
          e'.kind ≠ .lexical ∧ e'.span.stop ≤ (ParseError.lexical e).offset)) ∧
      ∀ ts, tokenize bytes = .ok ts →
        (∀ l, ∃ d', (Descent.loaded o ts l log).answer (.part .content) =
          some ((parse o bytes).map (·.root), d')) ∧
        ∀ e, parse o bytes ≠ .error (.lexical e) := by
  refine ⟨?_, ?_, ?_, ?_, ?_⟩
  · exact Descent.exists_answer_content (Descent.inside_start o bytes log) rfl
  · intro s hs
    obtain ⟨ts, eof, htokens, -⟩ := exists_tokens_of_parse hs
    exact ⟨ts ++ [eof], htokens⟩
  · intro e he
    exact tokenize_of_lexical he
  · intro e he
    exact exists_error_of_tokenize he
  · intro ts hts
    obtain ⟨hfeed, -, hne⟩ := Feed.pushAll_of_tokenize hts
    refine ⟨?_, ?_⟩
    · intro l
      exact Descent.exists_answer_content (Descent.inside_loaded hne l log) (hfeed _)
    · intro e he
      have herror := tokenize_of_lexical he
      exact absurd (hts.symm.trans herror) (by simp)

end ContentStream

end PageContent
