import PageContent.Proofs.ImageData
import PageContent.Proofs.Phrasing

/-! # Runs of the lexer

    What the lexer reads from one state to another, and how that depends on the
    bytes that come later.

    * **One step** divides the bytes into a gap, the token, and the rest. Image
      data and the terminator after it belong together.
    * **Reaches**: the tokens between two states of the lexer.
    * **Edits**: tokens stay the same if the bytes after them are replaced by
      others in front of which words may end as before.
    * **Order**: data comes between `ID` and `EI` and nowhere else.
-/

namespace PageContent

namespace Lexer

/-! ## One step -/

theorem next_of_token {l : Lexer} {lexeme : Lexeme} {width : Nat}
    (h : l.reading = .token lexeme width) :
    l.next = (.ok ⟨lexeme, ⟨l.position + l.gap, l.position + l.gap + width⟩⟩,
      ⟨(l.rest.drop l.gap).drop width, l.position + l.gap + width,
        !l.dataNext && lexeme = .operator "ID"⟩) := by
  simp [next, h]

theorem next_of_fault {l : Lexer} {f : LexicalFault} {offset passed : Nat}
    (h : l.reading = .fault f offset passed) :
    ∃ l', l.next = (.error ⟨l.position + l.gap + offset, f⟩, l') := by
  rw [next, h]
  exact ⟨_, rfl⟩

theorem reading_plain {l : Lexer} (h : l.dataNext = false) :
    l.reading = Reading.ofBytes (l.rest.drop l.gap) := by
  rw [reading, h, if_neg Bool.false_ne_true]

theorem of_next {l l' : Lexer} {t : Token} (h : l.next = (.ok t, l')) :
    ∃ width, l.reading = .token t.lexeme width ∧
      t.span = ⟨l.position + l.gap, l.position + l.gap + width⟩ ∧
      l' = ⟨(l.rest.drop l.gap).drop width, l.position + l.gap + width,
        !l.dataNext && t.lexeme = .operator "ID"⟩ := by
  cases hread : l.reading with
  | token lexeme width =>
    rw [next_of_token hread] at h
    obtain ⟨ht, rfl⟩ := Prod.mk.inj h
    obtain rfl := Except.ok.inj ht
    exact ⟨width, rfl, rfl, rfl⟩
  | fault f offset passed =>
    simp [next, hread] at h

theorem of_next_error {l l' : Lexer} {e : LexicalError} (h : l.next = (.error e, l')) :
    ∃ f offset passed, l.reading = .fault f offset passed ∧
      e = ⟨l.position + l.gap + offset, f⟩ ∧
      l' = ⟨(l.rest.drop l.gap).drop passed, l.position + l.gap + passed, false⟩ := by
  cases hread : l.reading with
  | token lexeme width => exact absurd h (by simp [next_of_token hread])
  | fault f offset passed =>
    rw [next, hread] at h
    obtain ⟨he, rfl⟩ := Prod.mk.inj h
    exact ⟨f, offset, passed, rfl, (Except.error.inj he).symm, rfl⟩

/-- A token after a gap. -/
theorem next_plain {g c r : List UInt8} {lexeme : Lexeme}
    (hg : Reading.blanks false (g ++ (c ++ r)) = g.length)
    (hc : Reading.ofBytes (c ++ r) = .token lexeme c.length) (position : Nat) :
    next ⟨g ++ (c ++ r), position, false⟩ =
      (.ok ⟨lexeme, ⟨position + g.length, position + g.length + c.length⟩⟩,
        ⟨r, position + g.length + c.length, lexeme = .operator "ID"⟩) := by
  have hgap : gap ⟨g ++ (c ++ r), position, false⟩ = g.length := by
    simpa [gap] using hg
  have hread : reading ⟨g ++ (c ++ r), position, false⟩ = .token lexeme c.length := by
    simp only [reading, Bool.false_eq_true, if_false, hgap, List.drop_left, hc]
  rw [next_of_token hread, hgap]
  simp

/-- A token without a gap in front of it. -/
theorem next_front {c r : List UInt8} {lexeme : Lexeme}
    (hc : Reading.ofBytes (c ++ r) = .token lexeme c.length) (position : Nat) :
    next ⟨c ++ r, position, false⟩ =
      (.ok ⟨lexeme, ⟨position, position + c.length⟩⟩,
        ⟨r, position + c.length, lexeme = .operator "ID"⟩) := by
  have hblanks : Reading.blanks false ([] ++ (c ++ r)) = ([] : List UInt8).length :=
    Reading.blanks_of_token hc
  exact next_plain hblanks hc position

/-- What is passed over as a whole makes no difference to the token after it. -/
theorem next_skip {g bytes : List UInt8}
    (h : Reading.blanks false (g ++ bytes) = g.length + Reading.blanks false bytes)
    (position : Nat) :
    next ⟨g ++ bytes, position, false⟩ = next ⟨bytes, position + g.length, false⟩ := by
  have hgap : gap ⟨g ++ bytes, position, false⟩ =
      g.length + gap ⟨bytes, position + g.length, false⟩ := h
  have hdrop : (g ++ bytes).drop (g.length + gap ⟨bytes, position + g.length, false⟩) =
      bytes.drop (gap ⟨bytes, position + g.length, false⟩) := List.drop_length_add_append _
  have hread : reading ⟨g ++ bytes, position, false⟩ =
      reading ⟨bytes, position + g.length, false⟩ := by
    simp only [reading, hgap, hdrop]
  unfold next
  simp only [hread, hgap, hdrop, Nat.add_assoc]

/-- A fault after a gap. -/
theorem next_fault {g r : List UInt8} {f : LexicalFault} {offset passed : Nat}
    (hg : Reading.blanks false (g ++ r) = g.length)
    (hr : Reading.ofBytes r = .fault f offset passed) (position : Nat) :
    ∃ e l', next ⟨g ++ r, position, false⟩ = (.error e, l') := by
  have hgap : gap ⟨g ++ r, position, false⟩ = g.length := by
    simpa [gap] using hg
  have hread : reading ⟨g ++ r, position, false⟩ = .fault f offset passed := by
    simp only [reading, Bool.false_eq_true, if_false, hgap, List.drop_left, hr]
  unfold next
  simp only [hread]
  exact ⟨_, _, rfl⟩

theorem of_next_plain {bytes : List UInt8} {position : Nat} {t : Token} {l' : Lexer}
    (h : next ⟨bytes, position, false⟩ = (.ok t, l')) :
    ∃ g c, bytes = g ++ (c ++ l'.rest) ∧ Reading.blanks false bytes = g.length ∧
      Reading.ofBytes (c ++ l'.rest) = .token t.lexeme c.length ∧
      t.span = ⟨position + g.length, position + g.length + c.length⟩ ∧
      l'.position = position + g.length + c.length ∧
      l'.dataNext = decide (t.lexeme = .operator "ID") := by
  obtain ⟨width, hread, hspan, rfl⟩ := of_next h
  have hgap : gap ⟨bytes, position, false⟩ = Reading.blanks false bytes := rfl
  simp only [reading, Bool.false_eq_true, if_false, hgap] at hread
  simp only [hgap] at hspan ⊢
  have hblanks := Reading.blanks_le_length false bytes
  have hwidth := Reading.width_le_of_token hread
  -- the gap and the token are the bytes that the step takes, in this order
  generalize hn : Reading.blanks false bytes = n at hread hspan hblanks hwidth ⊢
  have hg : (bytes.take n).length = n := by
    rw [List.length_take]
    omega
  have hc : ((bytes.drop n).take width).length = width := by
    rw [List.length_take]
    omega
  refine ⟨bytes.take n, (bytes.drop n).take width, ?_, hg.symm, ?_, ?_, ?_, rfl⟩
  · rw [List.take_append_drop, List.take_append_drop]
  · rw [List.take_append_drop, hc, hread]
  · rw [hg, hc, hspan]
  · rw [hg, hc]

/-- Image data, after what sets it apart from `ID`. -/
theorem next_data {sep data gap r : List UInt8}
    (hsep : InlineData.separator (sep ++ (data ++ (gap ++ (InlineData.mark ++ r)))) = sep.length)
    (h : InlineData.Delimits data gap r) (position : Nat) :
    next ⟨sep ++ (data ++ (gap ++ (InlineData.mark ++ r))), position, true⟩ =
      (.ok ⟨.inlineData data, ⟨position + sep.length, position + sep.length + data.length⟩⟩,
        ⟨gap ++ (InlineData.mark ++ r), position + sep.length + data.length, false⟩) := by
  have hgap : Lexer.gap ⟨sep ++ (data ++ (gap ++ (InlineData.mark ++ r))), position, true⟩ =
      sep.length := by
    simpa [Lexer.gap] using hsep
  have hread : reading ⟨sep ++ (data ++ (gap ++ (InlineData.mark ++ r))), position, true⟩ =
      .token (.inlineData data) data.length := by
    simp only [reading, if_true, hgap, List.drop_left, Reading.inlineData,
      InlineData.length?_of_delimits h, List.take_left]
  rw [next_of_token hread, hgap]
  simp

theorem of_next_data {bytes : List UInt8} {position : Nat} {t : Token} {l' : Lexer}
    (h : next ⟨bytes, position, true⟩ = (.ok t, l')) :
    ∃ sep data gap r, bytes = sep ++ (data ++ (gap ++ (InlineData.mark ++ r))) ∧
      InlineData.separator bytes = sep.length ∧ InlineData.Delimits data gap r ∧
      t = ⟨.inlineData data, ⟨position + sep.length, position + sep.length + data.length⟩⟩ ∧
      l' = ⟨gap ++ (InlineData.mark ++ r), position + sep.length + data.length, false⟩ := by
  obtain ⟨width, hread, -, -⟩ := of_next h
  have hgap : gap ⟨bytes, position, true⟩ = InlineData.separator bytes := rfl
  simp only [reading, if_true, hgap, Reading.inlineData] at hread
  split at hread
  · next n hn =>
    obtain ⟨data, gap, r, hdrop, -, hdelimits⟩ := InlineData.delimits_of_length? hn
    -- at most one byte sets the data apart from `ID`
    have hle := InlineData.separator_le_length bytes
    have hsep : (bytes.take (InlineData.separator bytes)).length = InlineData.separator bytes := by
      rw [List.length_take]
      omega
    have hbytes : bytes = bytes.take (InlineData.separator bytes) ++
        (data ++ (gap ++ (InlineData.mark ++ r))) := by
      rw [← hdrop, List.take_append_drop]
    have hsep' : InlineData.separator (bytes.take (InlineData.separator bytes) ++
        (data ++ (gap ++ (InlineData.mark ++ r)))) = (bytes.take (InlineData.separator bytes)).length := by
      rw [← hbytes, hsep]
    have hnext := next_data hsep' hdelimits position
    rw [← hbytes, h] at hnext
    obtain ⟨ht, hl⟩ := Prod.mk.inj hnext
    exact ⟨_, data, gap, r, hbytes, hsep.symm, hdelimits, Except.ok.inj ht, hl⟩
  · exact absurd hread (by simp)

/-- After image data the terminator comes, as an operator. -/
theorem next_mark {data gap r : List UInt8} (h : InlineData.Delimits data gap r)
    (position : Nat) :
    next ⟨gap ++ (InlineData.mark ++ r), position, false⟩ =
      (.ok ⟨.operator "EI", ⟨position + gap.length, position + gap.length + 2⟩⟩,
        ⟨r, position + gap.length + 2, false⟩) := by
  obtain ⟨hr, hgap⟩ := h
  -- the blank before the terminator, if any, is the gap of the operator
  have hblanks : Reading.blanks false (gap ++ (InlineData.mark ++ r)) = gap.length := by
    have hmark : Reading.blanks false (InlineData.mark ++ r) = 0 := rfl
    rcases hgap with ⟨rfl, -⟩ | ⟨b, rfl, hb, -⟩
    · exact hmark
    · simp [Reading.blanks_cons, Reading.gapStep, hb, hmark]
  have hkeyword : Reading.keyword (Utf8.decode InlineData.mark) = .operator "EI" := by
    decide +kernel
  have hread : Reading.ofBytes (InlineData.mark ++ r) =
      .token (.operator "EI") InlineData.mark.length := by
    rw [← hkeyword]
    exact Reading.ofBytes_keyword (by decide) (List.all_eq_true.mp (by decide)) hr.wordEnds
  have hnext := next_plain hblanks hread position
  simpa [InlineData.mark] using hnext

/-! ## Several steps -/

/-- `l.Reaches ts l'`: from `l` on the lexer reads the tokens `ts`, and it is `l'`
    then. -/
inductive Reaches : Lexer → List Token → Lexer → Prop where
  | refl {l : Lexer} : Reaches l [] l
  | step {l l₁ l' : Lexer} {t : Token} {ts : List Token} (h : l.next = (.ok t, l₁))
      (hne : t.lexeme ≠ .eof) (hrest : Reaches l₁ ts l') : Reaches l (t :: ts) l'

theorem Reaches.trans {l l' l'' : Lexer} {ts us : List Token} (h : Reaches l ts l')
    (h' : Reaches l' us l'') : Reaches l (ts ++ us) l'' := by
  induction h with
  | refl => exact h'
  | step h hne hrest ih => exact Reaches.step h hne (ih h')

/-- A run of the lexer divides where its tokens do. -/
theorem Reaches.of_append {l l' : Lexer} {ts us : List Token} (h : Reaches l (ts ++ us) l') :
    ∃ l₁, Reaches l ts l₁ ∧ Reaches l₁ us l' := by
  induction ts generalizing l with
  | nil => exact ⟨l, Reaches.refl, h⟩
  | cons t ts ih =>
    cases h with
    | step hnext hne hrest =>
      obtain ⟨l₁, hts, hus⟩ := ih hrest
      exact ⟨l₁, Reaches.step hnext hne hts, hus⟩

theorem ofLexer_token {l l' : Lexer} {t : Token} (h : l.next = (.ok t, l'))
    (hne : t.lexeme ≠ .eof) : Scan.ofLexer l = .token t (Scan.ofLexer l') := by
  rw [Scan.ofLexer]
  split
  · next t' l'' h' =>
    rw [h] at h'
    obtain ⟨ht, rfl⟩ := Prod.mk.inj h'
    obtain rfl := Except.ok.inj ht
    simp [hne]
  · next e l'' h' =>
    rw [h] at h'
    exact absurd h' (by simp)

theorem ofLexer_finish {l l' : Lexer} {t : Token} (h : l.next = (.ok t, l'))
    (heof : t.lexeme = .eof) : Scan.ofLexer l = .finish t := by
  rw [Scan.ofLexer]
  split
  · next t' l'' h' =>
    rw [h] at h'
    obtain ⟨ht, rfl⟩ := Prod.mk.inj h'
    obtain rfl := Except.ok.inj ht
    simp [heof]
  · next e l'' h' =>
    rw [h] at h'
    exact absurd h' (by simp)

theorem ofLexer_error_eq {l l' : Lexer} {e : LexicalError} (h : l.next = (.error e, l')) :
    Scan.ofLexer l =
      if l'.remaining < l.remaining then .fault e (Scan.ofLexer l') else .stuck e := by
  rw [Scan.ofLexer]
  split
  · next t' l'' h' =>
    rw [h] at h'
    exact absurd h' (by simp)
  · next e' l'' h' =>
    rw [h] at h'
    obtain ⟨he, rfl⟩ := Prod.mk.inj h'
    obtain rfl := Except.error.inj he
    rfl

theorem ofLexer_error {l l' : Lexer} {e : LexicalError} (h : l.next = (.error e, l')) :
    Scan.ofLexer l = .fault e (Scan.ofLexer l') ∨ Scan.ofLexer l = .stuck e := by
  rw [ofLexer_error_eq h]
  split
  · exact .inl rfl
  · exact .inr rfl

/-- The scan of a lexer begins with the tokens that it reads. -/
theorem ofScan_of_reaches {l l' : Lexer} {ts : List Token} (h : Reaches l ts l') :
    Feed.ofScan (Scan.ofLexer l) = Feed.ofTokens ts (Feed.ofScan (Scan.ofLexer l')) := by
  induction h with
  | refl => rfl
  | step h hne hrest ih =>
    rw [ofLexer_token h hne, Feed.ofScan_token, ih]
    rfl

theorem tokens_of_reaches {l l' : Lexer} {ts us : List Token} (h : Reaches l ts l')
    (hus : (Scan.ofLexer l').tokens = .ok us) : (Scan.ofLexer l).tokens = .ok (ts ++ us) := by
  induction h with
  | refl => exact hus
  | step h hne hrest ih => rw [ofLexer_token h hne, Scan.tokens, ih hus, List.cons_append]

/-- Every token of a stream without faults is reached. Nothing comes after the
    end of the stream. -/
theorem exists_reaches {l : Lexer} {ts us : List Token} {t : Token}
    (h : (Scan.ofLexer l).tokens = .ok (ts ++ t :: us)) :
    ∃ l' l'', Reaches l ts l' ∧ l'.next = (.ok t, l'') ∧ (t.lexeme = .eof → us = []) ∧
      (t.lexeme ≠ .eof → (Scan.ofLexer l'').tokens = .ok us) := by
  -- by recursion on the scan: `t` is its first token, or among those after it
  fun_induction Scan.ofLexer l generalizing ts with
  | case1 l t₀ l' hnext heof =>
    have hlists : [t₀] = ts ++ t :: us := Except.ok.inj h
    cases ts with
    | nil =>
      obtain ⟨rfl, rfl⟩ := List.cons.inj hlists
      exact ⟨l, l', Reaches.refl, hnext, fun _ => rfl, fun hne => absurd heof hne⟩
    | cons t' ts => exact absurd (List.cons.inj hlists).2 (by simp)
  | case2 l t₀ l' hnext hne _ ih =>
    rw [Scan.tokens] at h
    cases hrest : (Scan.ofLexer l').tokens with
    | error e =>
      rw [hrest] at h
      exact absurd h (by simp)
    | ok us₀ =>
      rw [hrest] at h
      have hlists : t₀ :: us₀ = ts ++ t :: us := Except.ok.inj h
      cases ts with
      | nil =>
        obtain ⟨rfl, rfl⟩ := List.cons.inj hlists
        exact ⟨l, l', Reaches.refl, hnext, fun heof => absurd heof hne, fun _ => hrest⟩
      | cons t' ts =>
        obtain ⟨rfl, rfl⟩ := List.cons.inj hlists
        obtain ⟨m, m', hreach, hm⟩ := ih hrest
        exact ⟨m, m', Reaches.step hnext hne hreach, hm⟩
  | case3 l e l' hnext hlt ih => exact absurd h (by simp [Scan.tokens])
  | case4 l e l' hnext hge => exact absurd h (by simp [Scan.tokens])

/-- The bytes that tokens are read from come before the others, and make up the
    distance. -/
theorem exists_rest_of_next {l l' : Lexer} {t : Token} (h : l.next = (.ok t, l')) :
    ∃ c, l.rest = c ++ l'.rest ∧ l'.position = l.position + c.length := by
  obtain ⟨bytes, position, dataNext⟩ := l
  cases dataNext with
  | false =>
    obtain ⟨g, c, hbytes, -, -, -, hposition, -⟩ := of_next_plain h
    refine ⟨g ++ c, by simpa using hbytes, ?_⟩
    rw [hposition, List.length_append, Nat.add_assoc]
  | true =>
    obtain ⟨sep, data, gap, r, rfl, -, -, -, rfl⟩ := of_next_data h
    refine ⟨sep ++ data, by simp, ?_⟩
    simp [Nat.add_assoc]

theorem exists_rest_of_reaches {l l' : Lexer} {ts : List Token} (h : Reaches l ts l') :
    ∃ c, l.rest = c ++ l'.rest ∧ l'.position = l.position + c.length := by
  induction h with
  | refl => exact ⟨[], rfl, rfl⟩
  | step h hne hrest ih =>
    obtain ⟨c, hc, hposition⟩ := exists_rest_of_next h
    obtain ⟨c', hc', hposition'⟩ := ih
    refine ⟨c ++ c', by rw [hc, hc', List.append_assoc], ?_⟩
    rw [hposition', hposition, List.length_append, Nat.add_assoc]

/-- What is left goes from where the lexer stands to the end of the stream. -/
theorem Reaches.position_add_length {bytes : List UInt8} {l : Lexer} {ts : List Token}
    (h : Reaches (ofBytes bytes) ts l) : l.position + l.rest.length = bytes.length := by
  obtain ⟨c, hbytes, hposition⟩ := exists_rest_of_reaches h
  have hlength := congrArg List.length hbytes
  rw [List.length_append] at hlength
  have hstart : (ofBytes bytes).position = 0 := rfl
  have hrest : (ofBytes bytes).rest.length = bytes.length := rfl
  omega

/-! ## Edits -/

/-- A step stays the same if its token is no image data, and if words may end
    before the new bytes. -/
theorem next_plain_of_edit {c r r' : List UInt8} {position : Nat} {t : Token} {l' : Lexer}
    (h : next ⟨c ++ r, position, false⟩ = (.ok t, l')) (hne : t.lexeme ≠ .eof) {c' : List UInt8}
    (hl : l'.rest = c' ++ r) (hr : WordEnds r → WordEnds r') :
    next ⟨c ++ r', position, false⟩ = (.ok t, ⟨c' ++ r', l'.position, l'.dataNext⟩) := by
  obtain ⟨g, x, hbytes, hg, hx, hspan, hposition, hdata⟩ := of_next_plain h
  rw [hl] at hbytes hx
  have hc : c = g ++ (x ++ c') := by
    have : c ++ r = (g ++ (x ++ c')) ++ r := by simpa using hbytes
    exact List.append_cancel_right this
  subst hc
  have hxne : x ≠ [] := by
    have := (Reading.width_pos_of_token hx hne).1
    exact List.ne_nil_of_length_pos this
  -- the gap ends where the token starts, and the token has not been edited
  have hg' : Reading.blanks false (g ++ (x ++ (c' ++ r'))) = g.length := by
    have hpos := List.length_pos_iff.mpr hxne
    have hlt : Reading.blanks false ((g ++ (x ++ c')) ++ r) < (g ++ (x ++ c')).length := by
      rw [hg]
      simp only [List.length_append]
      omega
    have hblanks := Reading.blanks_append_of_lt hlt r'
    rw [hg] at hblanks
    simpa using hblanks
  have hx' := Reading.ofBytes_append hx hxne (wordEnds_append_imp hr)
  have hnext := next_plain hg' hx' position
  rw [← hspan, ← hposition, ← hdata] at hnext
  rw [List.append_assoc, List.append_assoc]
  exact hnext

theorem separator_append {c : List UInt8} (hc : c ≠ []) (r r' : List UInt8) :
    InlineData.separator (c ++ r) = InlineData.separator (c ++ r') := by
  cases c with
  | nil => exact absurd rfl hc
  | cons b c => rfl

/-- Image data stay the same if the terminator that was read after them stands alone
    before the new bytes, too. -/
theorem next_data_of_edit {c r r' : List UInt8} {position : Nat} {t t' : Token} {l' l₂ : Lexer}
    (h : next ⟨c ++ r, position, true⟩ = (.ok t, l')) {c' : List UInt8} (hl : l'.rest = c' ++ r)
    (h₂ : l'.next = (.ok t', l₂)) {c₂ : List UInt8} (hl₂ : l₂.rest = c₂ ++ r)
    (hr : StandsAlone r → StandsAlone r') :
    next ⟨c ++ r', position, true⟩ = (.ok t, ⟨c' ++ r', l'.position, l'.dataNext⟩) := by
  obtain ⟨sep, data, gap, rest, hbytes, hsep, hdelimits, rfl, rfl⟩ := of_next_data h
  rw [next_mark hdelimits] at h₂
  obtain ⟨-, rfl⟩ := Prod.mk.inj h₂
  obtain rfl : rest = c₂ ++ r := hl₂
  have hc' : c' = gap ++ (InlineData.mark ++ c₂) := by
    have : c' ++ r = (gap ++ (InlineData.mark ++ c₂)) ++ r := by simpa using hl.symm
    exact List.append_cancel_right this
  have hc : c = sep ++ (data ++ (gap ++ (InlineData.mark ++ c₂))) := by
    have : c ++ r = (sep ++ (data ++ (gap ++ (InlineData.mark ++ c₂)))) ++ r := by
      simpa using hbytes
    exact List.append_cancel_right this
  subst hc hc'
  -- the data ends where it did
  have hdelimits' : InlineData.Delimits data gap (c₂ ++ r') :=
    ⟨standsAlone_append_imp hr hdelimits.1, hdelimits.2⟩
  have hsep' : InlineData.separator
      (sep ++ (data ++ (gap ++ (InlineData.mark ++ (c₂ ++ r'))))) = sep.length := by
    rw [← hsep]
    have hcons : sep ++ (data ++ (gap ++ InlineData.mark)) ≠ [] := by
      simp [InlineData.mark]
    have := separator_append hcons (c₂ ++ r') (c₂ ++ r)
    simpa using this
  have hnext := next_data hsep' hdelimits' position
  simpa using hnext

/-- **Edits**: tokens stay the same if new bytes come after them, as long as words
    and terminators may end in front of these where they did before. What came
    next after image data must not have been its terminator. -/
theorem Reaches.edit {l l' : Lexer} {ts : List Token} (h : Reaches l ts l') {r' : List UInt8}
    (hnext : ∀ last data, ts.getLast? = some last → last.lexeme = .inlineData data →
      ∀ t l'', l'.next = (.ok t, l'') → t.lexeme ≠ .operator "EI")
    (hword : WordEnds l'.rest → WordEnds r') (hmark : StandsAlone l'.rest → StandsAlone r') :
    ∃ c, l.rest = c ++ l'.rest ∧ l'.position = l.position + c.length ∧
      Reaches ⟨c ++ r', l.position, l.dataNext⟩ ts ⟨r', l'.position, l'.dataNext⟩ := by
  induction h with
  | refl => exact ⟨[], rfl, rfl, Reaches.refl⟩
  | @step l l₁ l' t ts h hne hrest ih =>
    have hnext' : ∀ last data, ts.getLast? = some last → last.lexeme = .inlineData data →
        ∀ t l'', l'.next = (.ok t, l'') → t.lexeme ≠ .operator "EI" := by
      intro last data hlast
      apply hnext last data
      rw [List.getLast?_cons, hlast]
      rfl
    obtain ⟨c', hc', -, hreach⟩ := ih hnext' hword hmark
    -- the tokens after this one are read again as before, by induction
    obtain ⟨c, hc, hposition⟩ := exists_rest_of_reaches (Reaches.step h hne hrest)
    refine ⟨c, hc, hposition, Reaches.step ?_ hne hreach⟩
    obtain ⟨bytes, position, dataNext⟩ := l
    obtain rfl : bytes = c ++ l'.rest := hc
    cases dataNext with
    | false => exact next_plain_of_edit h hne hc' hword
    | true =>
      -- the terminator has been read as well, so that it is not edited
      cases hrest with
      | refl =>
        obtain ⟨sep, data, gap, r, -, -, hdelimits, rfl, rfl⟩ := of_next_data h
        exact absurd rfl (hnext _ _ rfl rfl _ _ (next_mark hdelimits _))
      | step h₂ hne₂ hrest₂ =>
        obtain ⟨c₂, hc₂, -⟩ := exists_rest_of_reaches hrest₂
        exact next_data_of_edit h hc' h₂ hc₂ hmark

end Lexer

end PageContent
