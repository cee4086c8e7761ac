import PageContent.Proofs.Relocation
import PageContent.Proofs.Segmentation
import PageContent.Proofs.Unplaced

/-! # Layout

    What stands between tokens does not matter, as long as something does.

    * **Texts** are bytes that are one token by themselves. `ID` is left out, since what
      comes after it is not a token text.
    * **Layouts** put separators around texts. Any layout of some texts is read as the
      tokens of these texts, each in its place.
    * **Trees**: streams of the same lexemes are parsed alike, places aside, also where
      they are rejected.
-/

namespace PageContent

/-! ## Answers without places -/

/-- The error, wherever it was found. -/
def ParseError.unplaced : ParseError → ParseError
  | .lexical e => .lexical ⟨0, e.fault⟩
  | .grammar _ expected found => .grammar ⟨0, 0⟩ expected found
  | .arity _ keyword expected found => .arity ⟨0, 0⟩ keyword expected found
  | .type _ keyword index expected found => .type ⟨0, 0⟩ keyword index expected found

/-- The answer of the parser, wherever its parts lie. -/
def ContentStream.unplacedAnswer (answer : Except ParseError ContentStream) :
    Except ParseError Node :=
  mapBoth ParseError.unplaced (fun s => s.root.unplaced) answer

namespace Node

mutual

theorem unplaced_mapSpans (g : Span → Span) (n : Node) :
    (n.mapSpans g).unplaced = n.unplaced := by
  match n with
  | .invocation call => rfl
  | .group p cs s =>
    show Node.group p (unplacedAll (mapSpansAll g cs)) ⟨0, 0⟩ = .group p (unplacedAll cs) ⟨0, 0⟩
    rw [unplacedAll_mapSpansAll g cs]

theorem unplacedAll_mapSpansAll (g : Span → Span) (cs : List Node) :
    unplacedAll (mapSpansAll g cs) = unplacedAll cs := by
  match cs with
  | [] => rfl
  | c :: cs =>
    rw [mapSpansAll, unplacedAll, unplacedAll, unplaced_mapSpans g c, unplacedAll_mapSpansAll g cs]

end

end Node

namespace Relocation

variable (f : Relocation)

theorem unplaced_error (e : ParseError) : (f.error e).unplaced = e.unplaced := by
  cases e <;> rfl

/-- The tree of a stream that has no items in front. -/
theorem unplaced_root (h : f.before = []) (ns : List Node) :
    (f.root (.ofChildren .content ns)).unplaced = (Node.ofChildren .content ns).unplaced := by
  have hns : (ns.map f.node).map Node.unplaced = ns.map Node.unplaced := by
    rw [List.map_map]
    exact List.map_congr_left fun n _ => Node.unplaced_mapSpans f.span n
  unfold root
  rw [h, Node.unplaced_ofChildren, Node.unplaced_ofChildren]
  exact congrArg (Node.group .content · ⟨0, 0⟩) hns

/-- All places are the same. -/
def forget : Relocation where
  span _ := ⟨0, 0⟩
  position _ := 0
  span_join _ _ := rfl
  before := []

theorem map_forget_token (ts : List Token) :
    ts.map forget.token = (ts.map (·.lexeme)).map (Token.mk · ⟨0, 0⟩) := by
  rw [List.map_map]
  rfl

end Relocation

namespace ContentStream

open Recognizer

/-- Without places, the answer is that of a recogniser that has none. -/
theorem unplacedAnswer_parse (o : Options) (bytes : List UInt8) :
    unplacedAnswer (parse o bytes) = mapBoth (fun r => r.1.unplaced) (fun r => r.1.unplaced)
      (run o (start .content) (Relocation.forget.feed (Feed.ofBytes bytes))) := by
  have hrun := Relocation.forget.run_state o grounded_start (Feed.ofBytes bytes) (.inl rfl)
  have hstart : Relocation.forget.state (start .content) = start .content := rfl
  rw [← hstart, hrun]
  cases hanswer : run o (start .content) (Feed.ofBytes bytes) with
  | error r =>
    rw [parse_eq_error_iff_run.mpr ⟨r.2, hanswer⟩]
    exact congrArg Except.error (Relocation.forget.unplaced_error r.1).symm
  | ok r =>
    have hparse : parse o bytes = .ok ⟨r.1⟩ := parse_eq_ok_iff_run.mpr ⟨r.2, hanswer⟩
    obtain ⟨ts, eof, -, -, ns, -, hroot⟩ := (parse_eq_ok_iff o bytes _).mp hparse
    have hunplaced := Relocation.forget.unplaced_root rfl ns
    rw [← hroot] at hunplaced
    rw [hparse]
    exact congrArg Except.ok hunplaced.symm

/-- **Lexemes**: streams without faults that say the same are parsed alike. -/
theorem unplacedAnswer_of_lexemes {bytes bytes' : List UInt8} {ts ts' : List Token}
    {eof eof' : Token} (h : tokenize bytes = .ok (ts ++ [eof]))
    (h' : tokenize bytes' = .ok (ts' ++ [eof'])) (heof : eof.lexeme = eof'.lexeme)
    (hts : ts.map (·.lexeme) = ts'.map (·.lexeme)) (o : Options) :
    unplacedAnswer (parse o bytes) = unplacedAnswer (parse o bytes') := by
  have hfeed : ∀ {bytes : List UInt8} {ts : List Token} {eof : Token},
      tokenize bytes = .ok (ts ++ [eof]) → Relocation.forget.feed (Feed.ofBytes bytes) =
        Feed.ofTokens ((ts.map (·.lexeme)).map (Token.mk · ⟨0, 0⟩))
          (.finish [] ⟨eof.lexeme, ⟨0, 0⟩⟩) := by
    intro bytes ts eof htokens
    rw [Feed.ofBytes_of_tokenize htokens, Relocation.feed_ofTokens,
      Relocation.map_forget_token]
    rfl
  rw [unplacedAnswer_parse, unplacedAnswer_parse, hfeed h, hfeed h', heof, hts]

end ContentStream

/-! ## Texts -/

/-- Bytes that are one token by themselves, which is not `ID`. -/
structure TokenText where
  bytes : List UInt8
  lexeme : Lexeme
  reads : (Lexer.ofBytes bytes).next.1 = .ok ⟨lexeme, ⟨0, bytes.length⟩⟩
  ne_eof : lexeme ≠ .eof
  ne_id : lexeme ≠ .operator "ID"

namespace TokenText

variable (r : TokenText)

/-- There is no gap in front of the token, and nothing after it. -/
theorem reading : Reading.ofBytes r.bytes = .token r.lexeme r.bytes.length := by
  have hnext : (Lexer.ofBytes r.bytes).next =
      (.ok ⟨r.lexeme, ⟨0, r.bytes.length⟩⟩, (Lexer.ofBytes r.bytes).next.2) := by
    rw [← r.reads]
  obtain ⟨g, c, hbytes, -, hread, hspan, -⟩ := Lexer.of_next_plain hnext
  obtain ⟨hstart, hstop⟩ := Span.mk.inj hspan
  have hg : g = [] := List.length_eq_zero_iff.mp (by omega)
  subst hg
  have hc : c.length = r.bytes.length := by
    rw [hstop]
    simp
  rw [List.nil_append] at hbytes
  rwa [← hbytes, hc] at hread

theorem bytes_ne_nil : r.bytes ≠ [] :=
  (Reading.width_pos_of_token r.reading r.ne_eof).2

/-- In front of a boundary of words the text is read in the same way. -/
theorem reading_append {z : List UInt8} (hz : WordEnds z) :
    Reading.ofBytes (r.bytes ++ z) = .token r.lexeme r.bytes.length := by
  have hread : Reading.ofBytes (r.bytes ++ []) = .token r.lexeme r.bytes.length := by
    rw [List.append_nil]
    exact r.reading
  exact Reading.ofBytes_append hread r.bytes_ne_nil fun _ => hz

/-- A gap ends in front of a text. -/
theorem blanks_append {z : List UInt8} (hz : WordEnds z) :
    Reading.blanks false (r.bytes ++ z) = 0 :=
  Reading.blanks_of_token (r.reading_append hz)

end TokenText

/-! ## Separators -/

namespace IsSeparator

variable {g : List UInt8}

/-- A separator is passed over as a whole. -/
theorem blanks_append (h : IsSeparator g) (z : List UInt8) :
    Reading.blanks false (g ++ z) = g.length + Reading.blanks false z := by
  induction h with
  | nil => exact (Nat.zero_add _).symm
  | @blank b g hb h ih =>
    have hstep : Reading.gapStep false b = some false := by
      simp [Reading.gapStep, hb]
    rw [List.cons_append, Reading.blanks_cons, hstep, List.length_cons]
    show Reading.blanks false (g ++ z) + 1 = _
    omega
  | @comment text g stop htext hstop h ih =>
    have hstep : Reading.gapStep false (Byte.ofChar '%') = some true := by decide
    have hcomment := Reading.blanks_comment htext hstop (g ++ z)
    rw [List.cons_append, List.append_assoc, List.cons_append, Reading.blanks_cons, hstep,
      List.length_cons, List.length_append, List.length_cons]
    show Reading.blanks true (text ++ stop :: (g ++ z)) + 1 = _
    omega

/-- Words end in front of a separator. -/
theorem wordEnds (h : IsSeparator g) (hne : g ≠ []) (z : List UInt8) : WordEnds (g ++ z) := by
  intro b hb
  cases h with
  | nil => exact absurd rfl hne
  | blank hblank h =>
    obtain rfl := Option.some.inj hb
    simp [Byte.isRegular, hblank]
  | comment htext hstop h =>
    obtain rfl := Option.some.inj hb
    decide

end IsSeparator

/-! ## Layouts -/

/-- The gaps around some texts: one in front of each, and one after the last. -/
structure Layout (rs : List TokenText) where
  gaps : List (List UInt8)
  length_gaps : gaps.length = rs.length + 1
  isSeparator : ∀ g ∈ gaps, IsSeparator g
  /-- Between two texts there is something. -/
  apart : ∀ i, 0 < i → i < rs.length → gaps[i]? ≠ some []

namespace Layout

/-- Gaps and texts in turn. -/
def interleave : List (List UInt8) → List TokenText → List UInt8
  | g :: gs, r :: rs => g ++ (r.bytes ++ interleave gs rs)
  | g :: _, [] => g
  | [], _ => []

/-- The tokens of texts that gaps are put around, each in its place. -/
def tokensFrom (position : Nat) : List (List UInt8) → List TokenText → List Token
  | g :: gs, r :: rs =>
    ⟨r.lexeme, ⟨position + g.length, position + g.length + r.bytes.length⟩⟩ ::
      tokensFrom (position + g.length + r.bytes.length) gs rs
  | _, _ => []

variable {rs : List TokenText}

/-- The stream of a layout. -/
def bytes (l : Layout rs) : List UInt8 :=
  interleave l.gaps rs

/-- The tokens of a layout, without the end of the stream. -/
def tokens (l : Layout rs) : List Token :=
  tokensFrom 0 l.gaps rs

/-- The layout without its first gap and text. -/
def tail {r : TokenText} {g : List UInt8} {gs : List (List UInt8)}
    (l : Layout (r :: rs)) (h : l.gaps = g :: gs) : Layout rs where
  gaps := gs
  length_gaps := by
    have hlength := l.length_gaps
    rw [h, List.length_cons, List.length_cons] at hlength
    exact Nat.succ_inj.mp hlength
  isSeparator := by
    intro g' hg'
    exact l.isSeparator g' (h ▸ List.mem_cons_of_mem g hg')
  apart := by
    intro i hpos hlt
    have hgap := l.apart (i + 1) (Nat.succ_pos i) (Nat.succ_lt_succ hlt)
    rwa [h, List.getElem?_cons_succ] at hgap

theorem exists_gaps (l : Layout rs) : ∃ g gs, l.gaps = g :: gs ∧ IsSeparator g := by
  have hne : l.gaps ≠ [] := by
    apply List.ne_nil_of_length_pos
    rw [l.length_gaps]
    exact Nat.succ_pos rs.length
  obtain ⟨g, gs, hgaps⟩ := List.exists_cons_of_ne_nil hne
  refine ⟨g, gs, hgaps, l.isSeparator g ?_⟩
  rw [hgaps]
  exact List.mem_cons_self

/-- Words end in front of a layout whose first gap is not empty, and in front of one
    without texts. -/
theorem wordEnds_bytes (l : Layout rs) (h : rs ≠ [] → l.gaps[0]? ≠ some []) :
    WordEnds l.bytes := by
  obtain ⟨g, gs, hgaps, hg⟩ := l.exists_gaps
  unfold bytes
  rw [hgaps] at h ⊢
  by_cases hne : g = []
  · subst hne
    cases rs with
    | nil => exact wordEnds_nil
    | cons r rs => exact absurd rfl (h (List.cons_ne_nil r rs))
  · cases rs with
    | nil =>
      have hword := hg.wordEnds hne []
      rwa [List.append_nil] at hword
    | cons r rs => exact hg.wordEnds hne _

/-- A layout is read as its tokens, wherever it begins. -/
theorem tokens_ofLexer (l : Layout rs) (position : Nat) :
    (Scan.ofLexer ⟨l.bytes, position, false⟩).tokens = .ok (tokensFrom position l.gaps rs ++
      [⟨.eof, ⟨position + l.bytes.length, position + l.bytes.length⟩⟩]) := by
  -- by induction on the texts; each is one step of the lexer
  induction rs generalizing position with
  | nil =>
    obtain ⟨g, gs, hgaps, hg⟩ := l.exists_gaps
    have hbytes : l.bytes = g ++ ([] ++ []) := by
      unfold bytes
      rw [hgaps, List.append_nil, List.append_nil]
      rfl
    have hblanks : Reading.blanks false (g ++ ([] ++ [])) = g.length := hg.blanks_append []
    have hnext := Lexer.next_plain hblanks rfl position
    rw [← hbytes] at hnext
    rw [Lexer.ofLexer_finish hnext rfl, hgaps, hbytes]
    simp [Scan.tokens, tokensFrom]
  | cons r rs ih =>
    obtain ⟨g, gs, hgaps, hg⟩ := l.exists_gaps
    have hbytes : l.bytes = g ++ (r.bytes ++ (l.tail hgaps).bytes) := by
      unfold bytes
      rw [hgaps]
      rfl
    -- there is a gap after this text, unless nothing comes after it
    have hword : WordEnds (l.tail hgaps).bytes := by
      apply wordEnds_bytes
      intro hne
      have hgap := l.apart 1 Nat.one_pos (Nat.succ_lt_succ (List.length_pos_iff.mpr hne))
      rwa [hgaps] at hgap
    have hblanks : Reading.blanks false (g ++ (r.bytes ++ (l.tail hgaps).bytes)) = g.length := by
      rw [hg.blanks_append, r.blanks_append hword, Nat.add_zero]
    have hnext := Lexer.next_plain hblanks (r.reading_append hword) position
    rw [decide_eq_false r.ne_id, ← hbytes] at hnext
    have htokens := Lexer.tokens_of_reaches (Lexer.Reaches.step hnext r.ne_eof Lexer.Reaches.refl)
      (ih (l.tail hgaps) _)
    have hlength : l.bytes.length = g.length + r.bytes.length + (l.tail hgaps).bytes.length := by
      rw [hbytes, List.length_append, List.length_append, Nat.add_assoc]
    rw [htokens, hgaps, hlength]
    simp only [tokensFrom, List.cons_append, List.nil_append, Nat.add_assoc]
    rfl

/-- What the tokens of a layout say does not depend on the gaps. -/
theorem lexemes_tokens (l : Layout rs) : l.tokens.map (·.lexeme) = rs.map (·.lexeme) := by
  have hall : ∀ position, (tokensFrom position l.gaps rs).map (·.lexeme) =
      rs.map (·.lexeme) := by
    induction rs with
    | nil =>
      intro position
      obtain ⟨g, gs, hgaps, -⟩ := l.exists_gaps
      rw [hgaps]
      rfl
    | cons r rs ih =>
      intro position
      obtain ⟨g, gs, hgaps, -⟩ := l.exists_gaps
      rw [hgaps, tokensFrom, List.map_cons, List.map_cons]
      exact congrArg (r.lexeme :: ·) (ih (l.tail hgaps) _)
  exact hall 0

end Layout

/-- **Layout**: every layout of some texts is read as their tokens, each in its place, and
    the parser has one answer for all layouts, places aside. -/
theorem parse_layout (rs : List TokenText) :
    (∀ l : Layout rs, tokenize l.bytes =
      .ok (l.tokens ++ [⟨.eof, ⟨l.bytes.length, l.bytes.length⟩⟩])) ∧
    ∀ (l l' : Layout rs) (o : Options),
      ContentStream.unplacedAnswer (ContentStream.parse o l.bytes) =
        ContentStream.unplacedAnswer (ContentStream.parse o l'.bytes) := by
  have htokens : ∀ l : Layout rs, tokenize l.bytes =
      .ok (l.tokens ++ [⟨.eof, ⟨l.bytes.length, l.bytes.length⟩⟩]) := by
    intro l
    have hscan := l.tokens_ofLexer 0
    rwa [Nat.zero_add] at hscan
  refine ⟨htokens, ?_⟩
  intro l l' o
  apply ContentStream.unplacedAnswer_of_lexemes (htokens l) (htokens l') rfl
  rw [l.lexemes_tokens, l'.lexemes_tokens]

/-- Two layouts of a number and an operator, one of them with a comment. -/
theorem parse_layout_width :
    ContentStream.unplacedAnswer (ContentStream.parse Profile.strict.options
        (Byte.ofChars "5 w".toList)) =
      ContentStream.unplacedAnswer (ContentStream.parse Profile.strict.options
        (Byte.ofChars " 5%(\nw\n".toList)) := by
  have hspace : IsSeparator [0x20] := IsSeparator.blank (by decide) IsSeparator.nil
  have hline : IsSeparator [0x0A] := IsSeparator.blank (by decide) IsSeparator.nil
  have hcomment : IsSeparator [0x25, 0x28, 0x0A] :=
    @IsSeparator.comment [0x28] [] 0x0A (by decide +kernel) (by decide) IsSeparator.nil
  let five : TokenText := ⟨[0x35], .integer 5,
    @Lexer.next_raw [0x35] [] _ (by decide +kernel) (by simp), by simp, by simp⟩
  let width : TokenText := ⟨[0x77], .operator "w",
    @Lexer.next_raw [0x77] [] _ (by decide +kernel) (by simp), by simp, by decide⟩
  have hapart : ∀ {g h : List UInt8} {b : UInt8} {gap : List UInt8} (i : Nat), 0 < i → i < 2 →
      [g, b :: gap, h][i]? ≠ some [] := by
    intro g h b gap i hpos hlt
    obtain rfl : i = 1 := by omega
    simp
  let plain : Layout [five, width] :=
    ⟨[[], [0x20], []], rfl, by simp [hspace, IsSeparator.nil], hapart⟩
  let loose : Layout [five, width] :=
    ⟨[[0x20], [0x25, 0x28, 0x0A], [0x0A]], rfl, by simp [hspace, hline, hcomment], hapart⟩
  exact (parse_layout [five, width]).2 plain loose Profile.strict.options

end PageContent
