import PageContent.Proofs.Mutations
import PageContent.Proofs.Writing

/-! # Streams fall into tokens and gaps

    A stream without faults is its tokens and what stands between them. No byte is
    lost, and none is read twice.

    * **Gaps** are blanks and comments. Between `ID` and the data of an image there is
      at most one blank.
    * **Order**: a token starts where the one before ends, or later. The end of the
      stream lies at its end, and nothing comes after it.
    * **Texts**: the bytes of a token, by themselves, are read as that token.
-/

namespace PageContent

/-! ## Gaps -/

/-- Blanks and comments, every comment with the line end after it. -/
inductive IsSeparator : List UInt8 → Prop where
  | nil : IsSeparator []
  | blank {b : UInt8} {g : List UInt8} (hb : Byte.isBlank b = true) (h : IsSeparator g) :
      IsSeparator (b :: g)
  | comment {text g : List UInt8} {stop : UInt8} (htext : ∀ b ∈ text, Byte.isLineEnd b = false)
      (hstop : Byte.isLineEnd stop = true) (h : IsSeparator g) :
      IsSeparator (Byte.ofChar '%' :: (text ++ stop :: g))

/-- Blanks and comments in front of the end of the stream, where the last comment may
    go on to the end. -/
inductive IsTrailer : List UInt8 → Prop where
  | separator {g : List UInt8} (h : IsSeparator g) : IsTrailer g
  | comment {g text : List UInt8} (h : IsSeparator g)
      (htext : ∀ b ∈ text, Byte.isLineEnd b = false) :
      IsTrailer (g ++ Byte.ofChar '%' :: text)

namespace IsTrailer

theorem blank {b : UInt8} {g : List UInt8} (hb : Byte.isBlank b = true) (h : IsTrailer g) :
    IsTrailer (b :: g) := by
  cases h with
  | separator h => exact IsTrailer.separator (IsSeparator.blank hb h)
  | comment h htext => exact IsTrailer.comment (IsSeparator.blank hb h) htext

theorem cons_comment {text g : List UInt8} {stop : UInt8}
    (htext : ∀ b ∈ text, Byte.isLineEnd b = false) (hstop : Byte.isLineEnd stop = true)
    (h : IsTrailer g) : IsTrailer (Byte.ofChar '%' :: (text ++ stop :: g)) := by
  cases h with
  | separator h => exact IsTrailer.separator (IsSeparator.comment htext hstop h)
  | @comment g' text' h htext' =>
    have hbytes : Byte.ofChar '%' :: (text ++ stop :: (g' ++ Byte.ofChar '%' :: text')) =
        (Byte.ofChar '%' :: (text ++ stop :: g')) ++ Byte.ofChar '%' :: text' := by
      simp
    rw [hbytes]
    exact IsTrailer.comment (IsSeparator.comment htext hstop h) htext'

end IsTrailer

namespace Reading

theorem gapStep_lineEnd {b : UInt8} (h : Byte.isLineEnd b = true) (inComment : Bool) :
    gapStep inComment b = some false := by
  have hall : ∀ b, Byte.isLineEnd b = true → ∀ inComment, gapStep inComment b = some false :=
    Byte.forall_of_fin (by decide +kernel)
  exact hall b h inComment

/-- A comment is passed over together with its line end. -/
theorem blanks_comment {text : List UInt8} {stop : UInt8}
    (htext : ∀ b ∈ text, Byte.isLineEnd b = false) (hstop : Byte.isLineEnd stop = true)
    (r : List UInt8) : blanks true (text ++ stop :: r) = text.length + 1 + blanks false r := by
  induction text with
  | nil =>
    rw [List.nil_append, blanks_cons, gapStep_lineEnd hstop]
    simp [Nat.add_comm]
  | cons b text ih =>
    have hb : gapStep true b = some true := by
      simp [gapStep, htext b List.mem_cons_self]
    have hrest := ih fun c hc => htext c (List.mem_cons_of_mem b hc)
    rw [List.cons_append, blanks_cons, hb, List.length_cons]
    show blanks true (text ++ stop :: r) + 1 = _
    omega

/-- A comment that is in front of a gap is over within it, or goes on to the end of
    the stream. -/
theorem exists_stop_of_blanks {g r : List UInt8} (h : blanks true (g ++ r) = g.length) :
    (∃ text stop g', g = text ++ stop :: g' ∧ (∀ b ∈ text, Byte.isLineEnd b = false) ∧
        Byte.isLineEnd stop = true ∧ blanks false (g' ++ r) = g'.length) ∨
      r = [] ∧ ∀ b ∈ g, Byte.isLineEnd b = false := by
  induction g with
  | nil =>
    cases r with
    | nil => exact .inr ⟨rfl, fun b hb => absurd hb List.not_mem_nil⟩
    | cons b r => simp [blanks] at h
  | cons b g ih =>
    rw [List.cons_append, blanks_cons, List.length_cons] at h
    by_cases hb : Byte.isLineEnd b = true
    · -- the comment ends here
      rw [gapStep_lineEnd hb] at h
      have hrest : blanks false (g ++ r) = g.length := Nat.succ_inj.mp h
      exact .inl ⟨[], b, g, rfl, fun c hc => absurd hc List.not_mem_nil, hb, hrest⟩
    · have hb' : Byte.isLineEnd b = false := Bool.eq_false_iff.mpr hb
      have hstep : gapStep true b = some true := by
        simp [gapStep, hb']
      rw [hstep] at h
      have hrest : blanks true (g ++ r) = g.length := Nat.succ_inj.mp h
      have hmem : ∀ {text : List UInt8}, (∀ c ∈ text, Byte.isLineEnd c = false) →
          ∀ c ∈ b :: text, Byte.isLineEnd c = false := by
        intro text htext c hc
        rcases List.mem_cons.mp hc with rfl | hc
        · exact hb'
        · exact htext c hc
      rcases ih hrest with ⟨text, stop, g', rfl, htext, hstop, hg'⟩ | ⟨hr, htext⟩
      · exact .inl ⟨b :: text, stop, g', rfl, hmem htext, hstop, hg'⟩
      · exact .inr ⟨hr, hmem htext⟩

/-- What is passed over in front of a token, or of the end of the stream. -/
theorem isSeparator_of_blanks {g r : List UInt8} (h : blanks false (g ++ r) = g.length) :
    (r ≠ [] → IsSeparator g) ∧ IsTrailer g := by
  match g with
  | [] => exact ⟨fun _ => IsSeparator.nil, IsTrailer.separator IsSeparator.nil⟩
  | b :: g =>
    rw [List.cons_append, blanks_cons, List.length_cons] at h
    by_cases hblank : Byte.isBlank b = true
    · have hstep : gapStep false b = some false := by
        simp [gapStep, hblank]
      rw [hstep] at h
      have hrest : blanks false (g ++ r) = g.length := Nat.succ_inj.mp h
      obtain ⟨hseparator, htrailer⟩ := isSeparator_of_blanks hrest
      exact ⟨fun hr => IsSeparator.blank hblank (hseparator hr), htrailer.blank hblank⟩
    · by_cases hsign : b = Byte.ofChar '%'
      · subst hsign
        have hstep : gapStep false (Byte.ofChar '%') = some true := by decide
        rw [hstep] at h
        have hrest : blanks true (g ++ r) = g.length := Nat.succ_inj.mp h
        rcases exists_stop_of_blanks hrest with
          ⟨text, stop, g', rfl, htext, hstop, hg'⟩ | ⟨rfl, htext⟩
        · have hlength : g'.length < (text ++ stop :: g').length + 1 := by
            simp only [List.length_append, List.length_cons]
            omega
          obtain ⟨hseparator, htrailer⟩ := isSeparator_of_blanks hg'
          exact ⟨fun hr => IsSeparator.comment htext hstop (hseparator hr),
            htrailer.cons_comment htext hstop⟩
        · exact ⟨fun hr => absurd rfl hr, IsTrailer.comment IsSeparator.nil htext⟩
      · -- a gap has no other bytes
        have hstep : gapStep false b = none := by
          simp [gapStep, hblank, hsign]
        rw [hstep] at h
        exact absurd h (by simp)
termination_by g.length
decreasing_by
  all_goals
    subst_vars
    simp only [List.length_cons] at *
    omega

/-- At the end of the stream there are no bytes. -/
theorem eq_nil_of_eof {bytes : List UInt8} {width : Nat} (h : ofBytes bytes = .token .eof width) :
    bytes = [] := by
  match bytes with
  | [] => rfl
  | b :: rest => exact absurd rfl (start_of_token h).2.2

end Reading

/-! ## Steps of the lexer -/

/-- Where the last of some tokens ends; the start of the stream if there is none. -/
def Token.endOf (ts : List Token) : Nat :=
  (ts.getLast?.map (·.span.stop)).getD 0

namespace Lexer

variable {l l' : Lexer} {t : Token} {ts : List Token}

/-- A token ends where the lexer goes on, and image data comes next if it is `ID`. -/
theorem state_of_next (h : l.next = (.ok t, l')) :
    l'.position = t.span.stop ∧ (l'.dataNext = true → t.lexeme = .operator "ID") := by
  obtain ⟨width, -, hspan, rfl⟩ := of_next h
  refine ⟨by rw [hspan], ?_⟩
  intro hdata
  exact of_decide_eq_true (Bool.and_eq_true_iff.mp hdata).2

/-- The last step of a run. -/
theorem Reaches.of_concat (h : Reaches l (ts ++ [t]) l') :
    ∃ l₁, Reaches l ts l₁ ∧ l₁.next = (.ok t, l') := by
  obtain ⟨l₁, hreach, hlast⟩ := h.of_append
  cases hlast with
  | step hnext hne hrest =>
    cases hrest
    exact ⟨l₁, hreach, hnext⟩

/-- The lexer stands at the end of the last token, and image data comes next only if
    this token is `ID`. -/
theorem state_of_reaches {bytes : List UInt8} (h : Reaches (ofBytes bytes) ts l') :
    l'.position = Token.endOf ts ∧
      (l'.dataNext = true → ∃ earlier u, ts = earlier ++ [u] ∧ u.lexeme = .operator "ID") := by
  rcases List.eq_nil_or_concat ts with rfl | ⟨earlier, u, rfl⟩
  · cases h
    exact ⟨rfl, fun hdata => absurd hdata (by simp [ofBytes])⟩
  · rw [List.concat_eq_append] at h ⊢
    obtain ⟨l₁, -, hlast⟩ := h.of_concat
    obtain ⟨hposition, hdata⟩ := state_of_next hlast
    refine ⟨?_, fun hl' => ⟨earlier, u, rfl, hdata hl'⟩⟩
    rw [hposition]
    simp [Token.endOf]

end Lexer

/-! ## Segmentation -/

/-- The place of the token `t` in a stream, where the tokens `before` come before it. -/
structure IsPlaced (bytes : List UInt8) (before : List Token) (t : Token) : Prop where
  /-- The token starts after those before it, and lies in the stream. -/
  order : Token.endOf before ≤ t.span.start ∧ t.span.start ≤ t.span.stop ∧
    t.span.stop ≤ bytes.length
  /-- Only the end of the stream and empty image data take no byte. -/
  width : t.lexeme ≠ .eof → t.lexeme ≠ .inlineData [] → t.span.start < t.span.stop
  /-- The gap in front of it, unless it is image data. -/
  gap : t.lexeme ≠ .eof → (∀ d, t.lexeme ≠ .inlineData d) →
    IsSeparator (Span.slice ⟨Token.endOf before, t.span.start⟩ bytes)
  trailer : t.lexeme = .eof → IsTrailer (Span.slice ⟨Token.endOf before, t.span.start⟩ bytes)
  /-- Image data are the bytes themselves, and come after `ID` and at most one blank. -/
  data : ∀ d, t.lexeme = .inlineData d → t.raw bytes = d ∧
    (∃ earlier u, before = earlier ++ [u] ∧ u.lexeme = .operator "ID") ∧
    (Span.slice ⟨Token.endOf before, t.span.start⟩ bytes).length ≤ 1 ∧
    ∀ b ∈ Span.slice ⟨Token.endOf before, t.span.start⟩ bytes, Byte.isBlank b = true
  /-- Any other token is read again from its own bytes. -/
  again : t.lexeme ≠ .eof → (∀ d, t.lexeme ≠ .inlineData d) →
    (Lexer.ofBytes (t.raw bytes)).next.1 = .ok ⟨t.lexeme, ⟨0, (t.raw bytes).length⟩⟩

theorem Span.slice_append (a b c : List UInt8) :
    Span.slice ⟨a.length, a.length + b.length⟩ (a ++ (b ++ c)) = b := by
  show ((a ++ (b ++ c)).take (a.length + b.length)).drop a.length = b
  rw [List.take_length_add_append, List.take_left, List.drop_left]

/-- A token is read again from its own bytes. -/
theorem Lexer.next_raw {raw after : List UInt8} {lexeme : Lexeme}
    (h : Reading.ofBytes (raw ++ after) = .token lexeme raw.length) (hne : lexeme ≠ .eof) :
    (ofBytes raw).next.1 = .ok ⟨lexeme, ⟨0, raw.length⟩⟩ := by
  have hraw : raw ≠ [] := List.ne_nil_of_length_pos (Reading.width_pos_of_token h hne).1
  have hread : Reading.ofBytes (raw ++ []) = .token lexeme raw.length :=
    Reading.ofBytes_append h hraw fun _ => wordEnds_nil
  have hnext := next_front hread 0
  rw [List.append_nil] at hnext
  have hfirst := congrArg Prod.fst hnext
  simpa [ofBytes] using hfirst

/-- What separates image data from `ID` is a blank. -/
theorem InlineData.isBlank_separator {sep r : List UInt8}
    (h : separator (sep ++ r) = sep.length) :
    sep.length ≤ 1 ∧ ∀ b ∈ sep, Byte.isBlank b = true := by
  match sep with
  | [] => exact ⟨Nat.zero_le 1, fun b hb => absurd hb List.not_mem_nil⟩
  | b :: sep =>
    simp only [List.cons_append, separator, List.length_cons] at h
    split at h
    · next hb =>
      obtain rfl : sep = [] := List.length_eq_zero_iff.mp (by omega)
      exact ⟨Nat.le_refl 1, fun c hc => List.mem_singleton.mp hc ▸ hb⟩
    · omega

/-- No bytes are image data without an `ID` before them. -/
theorem Reading.ne_inlineData {bytes d : List UInt8} {width : Nat} :
    ofBytes bytes ≠ .token (.inlineData d) width := by
  intro h
  match bytes with
  | [] => exact absurd (Reading.token.inj h).1 (by simp)
  | b :: rest =>
    have hlegible := legible_of_token h fun x hx => absurd hx (by simp)
    cases hlegible

section

variable {before : List Token} {t : Token} {c : List UInt8}

theorem isPlaced_plain (hend : Token.endOf before = c.length) {g raw after : List UInt8}
    (hblanks : Reading.blanks false (g ++ (raw ++ after)) = g.length)
    (hread : Reading.ofBytes (raw ++ after) = .token t.lexeme raw.length)
    (hspan : t.span = ⟨c.length + g.length, c.length + g.length + raw.length⟩) :
    IsPlaced (c ++ (g ++ (raw ++ after))) before t := by
  have hgap : Span.slice ⟨Token.endOf before, t.span.start⟩ (c ++ (g ++ (raw ++ after))) = g := by
    rw [hend, hspan]
    exact Span.slice_append c g (raw ++ after)
  have hraw : t.raw (c ++ (g ++ (raw ++ after))) = raw := by
    unfold Token.raw
    rw [hspan, ← List.append_assoc, ← List.length_append]
    exact Span.slice_append (c ++ g) raw after
  obtain ⟨hseparator, htrailer⟩ := Reading.isSeparator_of_blanks hblanks
  refine ⟨?order, ?width, ?gap, ?trailer, ?data, ?again⟩
  case order =>
    rw [hend, hspan]
    simp only [List.length_append]
    omega
  case width =>
    intro hne _
    have hpos := (Reading.width_pos_of_token hread hne).1
    rw [hspan]
    show c.length + g.length < c.length + g.length + raw.length
    omega
  case gap =>
    intro hne _
    rw [hgap]
    exact hseparator (Reading.width_pos_of_token hread hne).2
  case trailer =>
    intro _
    rw [hgap]
    exact htrailer
  case data =>
    intro d hd
    rw [hd] at hread
    exact absurd hread Reading.ne_inlineData
  case again =>
    intro hne _
    rw [hraw]
    exact Lexer.next_raw hread hne

theorem isPlaced_data (hend : Token.endOf before = c.length) {sep data after : List UInt8}
    (hid : ∃ earlier u, before = earlier ++ [u] ∧ u.lexeme = .operator "ID")
    (hsep : InlineData.separator (sep ++ (data ++ after)) = sep.length) :
    IsPlaced (c ++ (sep ++ (data ++ after))) before
      ⟨.inlineData data, ⟨c.length + sep.length, c.length + sep.length + data.length⟩⟩ := by
  have hgap : Span.slice ⟨Token.endOf before, c.length + sep.length⟩
      (c ++ (sep ++ (data ++ after))) = sep := by
    rw [hend]
    exact Span.slice_append c sep (data ++ after)
  obtain ⟨hone, hblank⟩ := InlineData.isBlank_separator hsep
  refine ⟨?order, ?width, ?gap, ?trailer, ?data, ?again⟩
  case order =>
    rw [hend]
    simp only [List.length_append]
    omega
  case width =>
    intro _ hne
    have hdata : data ≠ [] := fun h => hne (congrArg Lexeme.inlineData h)
    have hpos := List.length_pos_iff.mpr hdata
    show c.length + sep.length < c.length + sep.length + data.length
    omega
  case gap => exact fun _ hne => absurd rfl (hne data)
  case trailer => exact fun heof => absurd heof (by simp)
  case data =>
    intro d hd
    obtain rfl := Lexeme.inlineData.inj hd
    rw [hgap]
    refine ⟨?_, hid, hone, hblank⟩
    unfold Token.raw
    rw [← List.append_assoc, ← List.length_append]
    exact Span.slice_append (c ++ sep) data after
  case again => exact fun _ hne => absurd rfl (hne data)

/-- A token that the lexer reads has its place after those that it has read. -/
theorem isPlaced_of_next {bytes : List UInt8} {l l' : Lexer}
    (h : Lexer.Reaches (Lexer.ofBytes bytes) before l) (hnext : l.next = (.ok t, l')) :
    IsPlaced bytes before t := by
  obtain ⟨c, hbytes, hposition⟩ := Lexer.exists_rest_of_reaches h
  obtain ⟨hend, hid⟩ := Lexer.state_of_reaches h
  obtain ⟨rest, position, dataNext⟩ := l
  have hbytes' : bytes = c ++ rest := hbytes
  have hposition' : position = c.length := by simpa [Lexer.ofBytes] using hposition
  subst hbytes' hposition'
  cases dataNext with
  | false =>
    obtain ⟨g, raw, hrest, hblanks, hread, hspan, -⟩ := Lexer.of_next_plain hnext
    have hrest' : rest = g ++ (raw ++ l'.rest) := hrest
    rw [hrest'] at hblanks ⊢
    exact isPlaced_plain hend.symm hblanks hread hspan
  | true =>
    obtain ⟨sep, data, gap, r, hrest, hsep, -, rfl, -⟩ := Lexer.of_next_data hnext
    have hrest' : rest = sep ++ (data ++ (gap ++ (InlineData.mark ++ r))) := hrest
    rw [hrest'] at hsep ⊢
    exact isPlaced_data hend.symm (hid rfl) hsep

end

/-- At the end of the stream only a gap is left. -/
theorem Lexer.of_next_eof {l l' : Lexer} {t : Token} (h : l.next = (.ok t, l'))
    (heof : t.lexeme = .eof) :
    l.dataNext = false ∧ Reading.blanks false l.rest = l.rest.length ∧
      t.span = ⟨l.position + l.rest.length, l.position + l.rest.length⟩ := by
  obtain ⟨bytes, position, dataNext⟩ := l
  cases dataNext with
  | false =>
    obtain ⟨g, raw, hbytes, hblanks, hread, hspan, -⟩ := of_next_plain h
    rw [heof] at hread
    obtain ⟨rfl, hafter⟩ := List.append_eq_nil_iff.mp (Reading.eq_nil_of_eof hread)
    have hgap : bytes = g := by
      rw [hbytes, hafter, List.append_nil, List.append_nil]
    show false = false ∧ Reading.blanks false bytes = bytes.length ∧
      t.span = ⟨position + bytes.length, position + bytes.length⟩
    rw [hblanks, hgap]
    exact ⟨rfl, rfl, hspan⟩
  | true =>
    obtain ⟨sep, data, gap, r, -, -, -, rfl, -⟩ := of_next_data h
    exact absurd heof (by simp)

/-- The end of the stream is read where the stream ends. -/
theorem eq_eof_of_next {bytes : List UInt8} {before : List Token} {t : Token} {l l' : Lexer}
    (h : Lexer.Reaches (Lexer.ofBytes bytes) before l) (hnext : l.next = (.ok t, l'))
    (heof : t.lexeme = .eof) : t = ⟨.eof, ⟨bytes.length, bytes.length⟩⟩ := by
  obtain ⟨-, -, hspan⟩ := Lexer.of_next_eof hnext heof
  obtain ⟨lexeme, span⟩ := t
  obtain rfl : lexeme = .eof := heof
  rw [h.position_add_length] at hspan
  exact congrArg (Token.mk .eof) hspan

/-- **Segmentation**: the end of the stream is the last token and no other one, and every
    token has its place after those before it. -/
theorem tokenize_segmentation {bytes : List UInt8} {ts : List Token}
    (h : tokenize bytes = .ok ts) :
    (∃ us, ts = us ++ [⟨.eof, ⟨bytes.length, bytes.length⟩⟩] ∧ ∀ t ∈ us, t.lexeme ≠ .eof) ∧
      ∀ before t after, ts = before ++ t :: after → IsPlaced bytes before t := by
  constructor
  · rcases Feed.ofScan_ofLexer (Lexer.ofBytes bytes) with
      ⟨us, eof, htokens, heof, -⟩ | ⟨e, -, -, htokens, -⟩
    · obtain rfl : ts = us ++ [eof] := Except.ok.inj (h.symm.trans htokens)
      obtain ⟨l, l', hreach, hnext, -⟩ := Lexer.exists_reaches h
      refine ⟨us, by rw [eq_eof_of_next hreach hnext heof], ?_⟩
      intro t ht hteof
      -- nothing would come after `t`, but the end of the stream does
      obtain ⟨before, after, rfl⟩ := List.append_of_mem ht
      have hsplit : before ++ t :: after ++ [eof] = before ++ t :: (after ++ [eof]) := by simp
      rw [hsplit] at h
      obtain ⟨-, -, -, -, hlast, -⟩ := Lexer.exists_reaches h
      exact absurd (hlast hteof) (by simp)
    · exact absurd (h.symm.trans htokens) (by simp)
  · intro before t after hts
    rw [hts] at h
    obtain ⟨l, l', hreach, hnext, -⟩ := Lexer.exists_reaches h
    exact isPlaced_of_next hreach hnext

/-- A string with a comment sign in it, an image, and a comment that goes on to the end. -/
theorem tokenize_segmentation_image : ∃ ts,
    tokenize (Byte.ofChars "%a(\n(b%)BI/W 1 ID xEI EI %c".toList) = .ok ts ∧
    (∃ us, ts = us ++ [⟨.eof, ⟨27, 27⟩⟩] ∧ ∀ t ∈ us, t.lexeme ≠ .eof) ∧
    ∀ before t after, ts = before ++ t :: after →
      IsPlaced (Byte.ofChars "%a(\n(b%)BI/W 1 ID xEI EI %c".toList) before t := by
  have hok : (tokenize (Byte.ofChars "%a(\n(b%)BI/W 1 ID xEI EI %c".toList)).isOk = true := by
    decide +kernel
  match h : tokenize (Byte.ofChars "%a(\n(b%)BI/W 1 ID xEI EI %c".toList) with
  | .ok ts => exact ⟨ts, rfl, tokenize_segmentation h⟩
  | .error e =>
    rw [h] at hok
    exact absurd hok Bool.false_ne_true

end PageContent
