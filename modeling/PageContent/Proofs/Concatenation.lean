import PageContent.Proofs.Relocation
import PageContent.Proofs.Segmentation

/-! # A stream in front of another one

    A stream that is accepted and a line feed can be put in front of any bytes. What these
    are then is what they are by themselves, further on.

    * **Lexer**: the line feed ends a comment, a word or image data at the end of the first
      stream. After it the lexer reads as at the start of a stream.
    * **Recogniser**: at the end of the first stream all sections are closed, so that the
      recogniser is where it started, with items in front.
    * **Glyph descriptions** must not come first in the second stream, unless the first one
      has no items.
-/

namespace PageContent

/-! ## The same bytes further on -/

namespace Relocation

/-- Everything lies `n` bytes further on, after the items `before`. -/
def shift (n : Nat) (before : List Node) : Relocation where
  span := Span.shift n
  position p := p + n
  span_join := Span.shift_join n
  before := before

theorem error_shift (n : Nat) (before : List Node) (e : ParseError) :
    (shift n before).error e = e.shift n := by
  cases e <;> rfl

end Relocation

namespace Lexer

/-- The lexer, `n` bytes further on. -/
def shift (n : Nat) (l : Lexer) : Lexer :=
  { l with position := l.position + n }

variable {l l' l₁ l₂ : Lexer} {n : Nat}

theorem next_shift (n : Nat) (before : List Node) (l : Lexer) :
    (l.shift n).next =
      (mapBoth (Relocation.shift n before).fault (Relocation.shift n before).token l.next.1,
        l.next.2.shift n) := by
  have hgap : (l.shift n).gap = l.gap := rfl
  have hreading : (l.shift n).reading = l.reading := rfl
  have hstart : (l.shift n).position + l.gap = l.position + l.gap + n := Nat.add_right_comm _ n _
  unfold next
  rw [hreading, hgap, hstart]
  cases l.reading with
  | token lexeme width =>
    have hstop : l.position + l.gap + n + width = l.position + l.gap + width + n :=
      Nat.add_right_comm _ n width
    dsimp only
    rw [hstop]
    rfl
  | fault f offset passed =>
    have hoffset : ∀ k, l.position + l.gap + n + k = l.position + l.gap + k + n :=
      fun k => Nat.add_right_comm _ n k
    dsimp only
    rw [hoffset, hoffset]
    rfl

/-- What is found further on is what is found. -/
theorem ofScan_shift (n : Nat) (before : List Node) (l : Lexer) :
    Feed.ofScan (Scan.ofLexer (l.shift n)) =
      (Relocation.shift n before).feed (Feed.ofScan (Scan.ofLexer l)) := by
  have hremaining : ∀ l : Lexer, (l.shift n).remaining = l.remaining := fun l => rfl
  fun_induction Scan.ofLexer l with
  | case1 l t l' hnext heof =>
    have hshift := next_shift n before l
    rw [hnext] at hshift
    rw [ofLexer_finish hshift heof]
    rfl
  | case2 l t l' hnext hne _ ih =>
    have hshift := next_shift n before l
    rw [hnext] at hshift
    rw [ofLexer_token hshift hne, Feed.ofScan_token, ih, Feed.ofScan_token, Relocation.feed_cons]
  | case3 l e l' hnext hlt ih =>
    have hshift := next_shift n before l
    rw [hnext] at hshift
    have hscan := ofLexer_error_eq hshift
    rw [hremaining, hremaining, if_pos hlt] at hscan
    rw [hscan]
    exact congrArg (Feed.fault [] _) ih
  | case4 l e l' hnext hge =>
    have hshift := next_shift n before l
    rw [hnext] at hshift
    have hscan := ofLexer_error_eq hshift
    rw [hremaining, hremaining, if_neg hge] at hscan
    rw [hscan]
    rfl

/-- After a gap and a line feed the lexer goes on as it would without them. -/
theorem next_lineFeed {g : List UInt8} (h : Reading.blanks false g = g.length)
    (position : Nat) (y : List UInt8) :
    next ⟨g ++ 0x0A :: y, position, false⟩ = next ⟨y, position + g.length + 1, false⟩ := by
  have hblanks : Reading.blanks false ((g ++ [0x0A]) ++ y) =
      (g ++ [0x0A]).length + Reading.blanks false y := by
    rw [List.append_assoc, List.length_append]
    exact Reading.blanks_append_lineFeed h y
  have hnext := next_skip hblanks position
  rwa [List.append_assoc, List.length_append, ← Nat.add_assoc] at hnext

end Lexer

/-! ## Answers -/

/-- There is a fault right in front. -/
def Feed.MeetsFault (e : LexicalError) (feed : Feed) : Prop :=
  (∃ rest, feed = .fault [] e rest) ∨ feed = .stuck [] e

/-- What a run finds, without what is left. -/
def answer (r : Except (ParseError × Feed) (Node × Feed)) : Except ParseError Node :=
  mapBoth Prod.fst Prod.fst r

namespace Recognizer

variable {o : Options}

theorem answer_of_meetsFault {feed : Feed} {e : LexicalError} (h : feed.MeetsFault e)
    (top : Frame) (outer : List Frame) :
    answer (run o (.between top outer) feed) = .error (.lexical e) := by
  rcases h with ⟨rest, rfl⟩ | rfl
  · rw [run]
    rfl
  · rw [run]
    rfl

/-- The next step of the lexer decides, even if only one of two lexers is stuck at a
    fault. -/
theorem answer_of_next {l₁ l₂ : Lexer} (h : l₁.next = l₂.next) (top : Frame)
    (outer : List Frame) :
    answer (run o (.between top outer) (Feed.ofScan (Scan.ofLexer l₁))) =
      answer (run o (.between top outer) (Feed.ofScan (Scan.ofLexer l₂))) := by
  have hfault : ∀ {l l' : Lexer} {e : LexicalError}, l.next = (.error e, l') →
      (Feed.ofScan (Scan.ofLexer l)).MeetsFault e := by
    intro l l' e hnext
    rcases Lexer.ofLexer_error hnext with hscan | hscan
    · rw [hscan]
      exact .inl ⟨_, rfl⟩
    · rw [hscan]
      exact .inr rfl
  match hnext : l₂.next with
  | (.ok t, l') =>
    rw [hnext] at h
    by_cases heof : t.lexeme = .eof
    · rw [Lexer.ofLexer_finish h heof, Lexer.ofLexer_finish hnext heof]
    · rw [Lexer.ofLexer_token h heof, Lexer.ofLexer_token hnext heof]
  | (.error e, l') =>
    rw [hnext] at h
    rw [answer_of_meetsFault (hfault h), answer_of_meetsFault (hfault hnext)]

end Recognizer

namespace ContentStream

open Recognizer

variable {o : Options} {x : List UInt8} {s : ContentStream}

theorem parse_eq_answer (o : Options) (bytes : List UInt8) :
    parse o bytes = mapBoth id mk (answer (run o (start .content) (Feed.ofBytes bytes))) := by
  unfold parse
  rw [read_content]
  cases run o (start .content) (Feed.ofBytes bytes) <;> rfl

/-- Between two items the end of the stream is accepted where all sections are closed. -/
theorem eq_between_of_finish (ho : o.unclosedStates = false) {state : RecognizerState}
    (hstate : Grounded state.frames) {pending : List Token} {eof : Token} {n : Node}
    (h : finish o pending eof state = .ok n) :
    pending = [] ∧ state = .between ⟨.stream, n.children.reverse⟩ [] := by
  cases state with
  | within part outer => exact absurd h finish_within
  | between top outer =>
    obtain ⟨hpending, ⟨htop, rfl⟩ | ⟨-, hunclosed, -⟩⟩ := finishFrames_eq_ok_iff.mp h
    · refine ⟨hpending, ?_⟩
      have hframes : Grounded (top :: outer) := hstate
      cases hframes with
      | stream nodes =>
        show _ = RecognizerState.between ⟨.stream, nodes.reverse.reverse⟩ []
        rw [List.reverse_reverse]
      | within hne houter => exact absurd htop (by simp)
    · exact absurd (ho.symm.trans hunclosed) Bool.false_ne_true

/-- At the end of a stream the recogniser is where it started, with the items of the
    stream. -/
theorem run_of_parse_eq_ok (ho : o.unclosedStates = false) (h : parse o x = .ok s)
    {ts : List Token} {eof : Token} (htokens : tokenize x = .ok (ts ++ [eof])) (feed : Feed) :
    run o (start .content) (Feed.ofTokens ts feed) =
      run o (.between ⟨.stream, s.children.reverse⟩ []) feed := by
  obtain ⟨left, hrun⟩ := parse_eq_ok_iff_run.mp h
  rw [Feed.ofBytes_of_tokenize htokens] at hrun
  rw [← List.append_nil ts] at htokens
  obtain ⟨phs, pending, state, rfl, hpending, hpassed, -⟩ := exists_passed h htokens
  rw [hpassed.same, Feed.ofTokens_pending hpending] at hrun
  -- the state at the end accepts the end of the stream
  have hfinish : ∃ n, finish o (pending ++ []) eof state = .ok n ∧ n = s.root := by
    have hrun' : run o state (.finish (pending ++ []) eof) = .ok (s.root, left) := hrun
    rw [run] at hrun'
    cases hfin : finish o (pending ++ []) eof state with
    | error e =>
      rw [hfin] at hrun'
      exact absurd hrun' (by simp)
    | ok n =>
      rw [hfin] at hrun'
      exact ⟨n, rfl, (Prod.mk.inj (Except.ok.inj hrun')).1⟩
  obtain ⟨n, hfin, rfl⟩ := hfinish
  rw [List.append_nil] at hfin
  obtain ⟨rfl, hstate⟩ := eq_between_of_finish ho hpassed.underway.grounded hfin
  rw [hpassed.same, hstate]
  rfl

end ContentStream

/-! ## Feeds -/

/-- The operator of the first phrase. There is none if a fault or the end of the stream
    comes first. -/
def Feed.firstKeyword? : Feed → Option String
  | .phrase ph _ => some ph.keyword
  | _ => none

/-- The operators that describe glyphs. -/
theorem Phrase.DescribesGlyph.keyword {ph : Phrase} (h : ph.DescribesGlyph) :
    ph.keyword = "d0" ∨ ph.keyword = "d1" := by
  have hall : ∀ op ∈ Operator.catalog, op.category = .type3Font →
      op.keyword = "d0" ∨ op.keyword = "d1" := by
    decide
  obtain ⟨op, hop, hcategory⟩ := h
  rw [← Operator.keyword_of_lookup? hop]
  exact hall op (Operator.mem_catalog_of_lookup? hop) hcategory

namespace Lexer

/-- What holds of a line feed and of the first of some bytes holds of the first byte if the
    line feed is put after them. -/
theorem boundary_lineFeed {p : UInt8 → Prop} (hp : p 0x0A) {rest : List UInt8}
    (h : ∀ b, rest.head? = some b → p b) (y : List UInt8) :
    ∀ b, (rest ++ 0x0A :: y).head? = some b → p b := by
  intro b hb
  cases rest with
  | nil => exact Option.some.inj hb ▸ hp
  | cons b' rest => exact h b hb

/-- A stream is read in the same way if a line feed comes after it. Then the lexer goes
    on as at the start of a stream. -/
theorem exists_reaches_lineFeed {x : List UInt8} {ts : List Token} {eof : Token}
    (htokens : tokenize x = .ok (ts ++ [eof])) (heof : eof.lexeme = .eof) (y : List UInt8) :
    ∃ l, Reaches (ofBytes (x ++ 0x0A :: y)) ts l ∧
      l.next = ((ofBytes y).shift (x.length + 1)).next := by
  obtain ⟨l, l', hreach, hnext, -⟩ := exists_reaches htokens
  obtain ⟨hdata, hblanks, -⟩ := of_next_eof hnext heof
  -- the line feed ends words and image data as the end of the stream does
  have hword : WordEnds l.rest → WordEnds (l.rest ++ 0x0A :: y) :=
    fun h => boundary_lineFeed (by decide) h y
  have hmark : StandsAlone l.rest → StandsAlone (l.rest ++ 0x0A :: y) :=
    fun h => boundary_lineFeed (by decide) h y
  have hedit : ∀ t l'', l.next = (.ok t, l'') → t.lexeme ≠ .operator "EI" := by
    intro t l'' ht
    rw [hnext] at ht
    obtain rfl := Except.ok.inj (Prod.mk.inj ht).1
    rw [heof]
    exact Lexeme.noConfusion
  obtain ⟨c, hx, hposition, hreach'⟩ := hreach.edit (fun _ _ _ _ => hedit) hword hmark
  have hbytes : x = c ++ l.rest := hx
  have hstream : c ++ (l.rest ++ 0x0A :: y) = x ++ 0x0A :: y := by
    rw [hbytes, List.append_assoc]
  have hlength : l.position + l.rest.length + 1 = 0 + (x.length + 1) := by
    rw [hposition, hbytes, List.length_append]
    show 0 + c.length + l.rest.length + 1 = _
    omega
  refine ⟨⟨l.rest ++ 0x0A :: y, l.position, l.dataNext⟩, ?_, ?_⟩
  · rw [hstream] at hreach'
    exact hreach'
  · rw [hdata, next_lineFeed hblanks, hlength]
    rfl

end Lexer

namespace ContentStream

open Recognizer

variable {o : Options} {x y : List UInt8} {s : ContentStream}

/-- **Concatenation**: an accepted stream and a line feed only move what comes after them.
    The items of both streams follow each other, and an error is the same error further
    on. Only a glyph description that comes first depends on what is in front. -/
theorem parse_append (ho : o.unclosedStates = false) (hx : parse o x = .ok s)
    (hy : s.children = [] ∨ ∀ keyword, (Feed.ofBytes y).firstKeyword? = some keyword →
      keyword ≠ "d0" ∧ keyword ≠ "d1") :
    parse o (x ++ 0x0A :: y) =
      match parse o y with
      | .ok t => .ok ⟨.ofChildren .content
          (s.children ++ t.children.map (Node.mapSpans (Span.shift (x.length + 1))))⟩
      | .error e => .error (e.shift (x.length + 1)) := by
  obtain ⟨ts, eof, htokens, heof⟩ := exists_tokens_of_parse hx
  obtain ⟨l, hreach, hnext⟩ := Lexer.exists_reaches_lineFeed htokens heof y
  let f := Relocation.shift (x.length + 1) s.children.reverse
  have hstart : f.state (start .content) = .between ⟨.stream, s.children.reverse⟩ [] := rfl
  have hglyph : f.before = [] ∨ (start .content).isFresh = false ∨
      ∀ ph rest, Feed.ofBytes y = .phrase ph rest → ¬ ph.DescribesGlyph := by
    rcases hy with hnil | hkeyword
    · exact .inl (List.reverse_eq_nil_iff.mpr hnil)
    · refine .inr (.inr ?_)
      intro ph rest hfeed hdescribes
      obtain ⟨hd0, hd1⟩ := hkeyword ph.keyword (by rw [hfeed]; rfl)
      exact hdescribes.keyword.elim hd0 hd1
  have hanswer : answer (run o (start .content) (Feed.ofBytes (x ++ 0x0A :: y))) =
      mapBoth f.error f.root (answer (run o (start .content) (Feed.ofBytes y))) := by
    calc answer (run o (start .content) (Feed.ofBytes (x ++ 0x0A :: y)))
        = answer (run o (start .content) (Feed.ofTokens ts (Feed.ofScan (Scan.ofLexer l)))) := by
          rw [← Lexer.ofScan_of_reaches hreach]
          rfl
      _ = answer (run o (f.state (start .content)) (Feed.ofScan (Scan.ofLexer l))) := by
          rw [run_of_parse_eq_ok ho hx htokens, hstart]
      _ = answer (run o (f.state (start .content)) (f.feed (Feed.ofBytes y))) := by
          rw [hstart, answer_of_next hnext, Lexer.ofScan_shift _ s.children.reverse]
          rfl
      _ = mapBoth f.error f.root (answer (run o (start .content) (Feed.ofBytes y))) := by
          rw [f.run_state o grounded_start (Feed.ofBytes y) hglyph]
          cases run o (start .content) (Feed.ofBytes y) <;> rfl
  rw [parse_eq_answer, hanswer, parse_eq_answer]
  cases answer (run o (start .content) (Feed.ofBytes y)) with
  | error e => exact congrArg Except.error (Relocation.error_shift _ _ e)
  | ok n =>
    show Except.ok (mk (Node.ofChildren .content
      (s.children.reverse.reverse ++ n.children.map f.node))) = _
    rw [List.reverse_reverse]
    rfl

/-- A path with a comment at its end, in front of a line width. -/
theorem parse_append_width : ∃ s,
    parse Profile.strict.options (Byte.ofChars "0 0 m 9 9 l S %".toList) = .ok s ∧
    parse Profile.strict.options
        (Byte.ofChars "0 0 m 9 9 l S %".toList ++ 0x0A :: Byte.ofChars "5 w".toList) =
      match parse Profile.strict.options (Byte.ofChars "5 w".toList) with
      | .ok t => .ok ⟨.ofChildren .content (s.children ++ t.children.map
          (Node.mapSpans (Span.shift ((Byte.ofChars "0 0 m 9 9 l S %".toList).length + 1))))⟩
      | .error e => .error (e.shift ((Byte.ofChars "0 0 m 9 9 l S %".toList).length + 1)) := by
  have hparse : (parse Profile.strict.options
      (Byte.ofChars "0 0 m 9 9 l S %".toList)).isOk = true := by
    decide +kernel
  have hfirst : (Feed.ofBytes (Byte.ofChars "5 w".toList)).firstKeyword? = some "w" := by
    decide +kernel
  match h : parse Profile.strict.options (Byte.ofChars "0 0 m 9 9 l S %".toList) with
  | .ok s =>
    refine ⟨s, rfl, parse_append rfl h (.inr ?_)⟩
    intro keyword hkeyword
    obtain rfl := Option.some.inj (hfirst.symm.trans hkeyword)
    decide
  | .error e =>
    rw [h] at hparse
    exact absurd hparse Bool.false_ne_true

end ContentStream

end PageContent
