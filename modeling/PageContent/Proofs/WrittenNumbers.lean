import PageContent.Proofs.RoundTrip

/-! # Numbers that have been read

    A number of a stream, written as an operand, and read again from what is written.

    * **Literals** of any length are numbers of the stream: integers of 64 bits, and
      reals for all others, rounded to the nearest value.
    * **Overflow**: a literal beyond the largest finite value is an infinite real. What
      is written for it is a word without digits, so it is not read as a number.
    * **All others** are read as the very token that they were.
-/

namespace PageContent

namespace Lexer

variable {c : List UInt8} {lexeme : Lexeme}

/-- What spells a token is read as this token when nothing follows it. -/
theorem next_of_spells (h : Reading.Spells c lexeme) :
    (ofBytes c).next = (.ok ⟨lexeme, ⟨0, c.length⟩⟩,
      ⟨[], c.length, lexeme = .operator "ID"⟩) := by
  have hnext := next_front (h.2 [] wordEnds_nil) 0
  rwa [List.append_nil, Nat.zero_add] at hnext

theorem tokenize_of_spells (h : Reading.Spells c lexeme) (hne : lexeme ≠ .eof)
    (hid : lexeme ≠ .operator "ID") :
    tokenize c = .ok [⟨lexeme, ⟨0, c.length⟩⟩, ⟨.eof, ⟨c.length, c.length⟩⟩] := by
  have hnext := next_of_spells h
  rw [decide_eq_false hid] at hnext
  exact tokens_of_reaches (Reaches.step hnext hne Reaches.refl) (tokens_nil c.length)

variable {l l' : Lexer} {t : Token} {x : Operand}

/-- A number that the lexer reads is an integer, or a real that is finite or infinite. -/
theorem number_of_next (h : l.next = (.ok t, l')) (hx : t.lexeme.scalar? = some x)
    (hnumber : x.isNumber = true) :
    (∃ i, t.lexeme = .integer i ∧ x = .integer i) ∨
      ∃ v, t.lexeme = .real v ∧ x = .real v ∧ (v.IsFinite ∨ v.IsInfinite) := by
  have hdenotes := Lexeme.denotes_of_scalar? hx
  obtain ⟨bytes, position, dataNext⟩ := l
  cases dataNext with
  | true =>
    -- image data is no number
    obtain ⟨sep, data, gap, r, -, -, -, rfl, -⟩ := of_next_data h
    cases hdenotes
    exact absurd hnumber Bool.false_ne_true
  | false =>
    obtain ⟨g, c, -, -, hread, -⟩ := of_next_plain h
    generalize t.lexeme = lexeme at hdenotes hread
    cases hdenotes with
    | integer i => exact .inl ⟨i, rfl, rfl⟩
    | real v =>
      refine .inr ⟨v, rfl, rfl, ?_⟩
      by_cases hv : v.IsInfinite
      · exact .inr hv
      · left
        match hbytes : c ++ l'.rest with
        | [] =>
          rw [hbytes] at hread
          exact absurd (Reading.token.inj hread).1 (by simp)
        | b :: rest =>
          rw [hbytes] at hread
          have hlegible := Reading.legible_of_token hread fun y hy => Lexeme.real.inj hy ▸ hv
          exact Lexeme.finite_of_legible hlegible
    | _ => exact absurd hnumber Bool.false_ne_true

end Lexer

namespace Operand

variable {x : Operand}

/-- A number that is not infinite is read from its text. -/
theorem tokenize_text {lexeme : Lexeme} (hx : x.lexemes = [lexeme]) (h : lexeme.Legible) :
    tokenize (Utf8.encode x.text) = .ok [⟨lexeme, ⟨0, (Utf8.encode x.text).length⟩⟩,
      ⟨.eof, ⟨(Utf8.encode x.text).length, (Utf8.encode x.text).length⟩⟩] := by
  have hlegible : x.Legible := by
    intro l hl
    rw [hx] at hl
    exact List.mem_singleton.mp hl ▸ h
  have htext : Utf8.encode x.text = x.latin1 := Utf8.encode_latin1 (ascii_operand x hlegible)
  -- an operand has neither operators nor the end of the stream among its tokens
  have hends : lexeme.endsOperands = false :=
    x.not_endsOperands lexeme (hx ▸ List.mem_singleton_self lexeme)
  have hne : lexeme ≠ .eof := by
    intro heof
    rw [heof] at hends
    exact absurd hends (by decide)
  have hid : lexeme ≠ .operator "ID" := by
    intro hid
    rw [hid] at hends
    exact absurd hends (by decide)
  rw [htext]
  exact Lexer.tokenize_of_spells (spells_scalar hx h) hne hid

/-- No number is read from what is written for an infinite real. -/
theorem number?_of_infinite {v : Binary64} (hv : v.IsInfinite) {ts : List Token}
    (h : tokenize (Utf8.encode (Operand.real v).text) = .ok ts) :
    ∀ u ∈ ts, u.lexeme.number? = none := by
  have hall : ∀ negative : Bool, ((tokenize (Utf8.encode
      (Operand.real (.ofRank negative Magnitude.infinity)).text)).toOption.all
        fun ts => ts.all fun u => u.lexeme.number?.isNone) = true := by
    decide +kernel
  obtain ⟨negative, rfl⟩ := hv
  have hnone := hall negative
  rw [h] at hnone
  intro u hu
  exact Option.isNone_iff_eq_none.mp (List.all_eq_true.mp hnone u hu)

/-- **Numbers** that have been read are written so that the same token is read again, and
    nothing else. An infinite real is the only exception: no number is read from its text. -/
theorem tokenize_number {l l' : Lexer} {t : Token} (h : l.next = (.ok t, l'))
    (hx : t.lexeme.scalar? = some x) (hnumber : x.isNumber = true) :
    ((∀ v, x = .real v → ¬ v.IsInfinite) →
      tokenize (Utf8.encode x.text) = .ok [⟨t.lexeme, ⟨0, (Utf8.encode x.text).length⟩⟩,
        ⟨.eof, ⟨(Utf8.encode x.text).length, (Utf8.encode x.text).length⟩⟩]) ∧
    ∀ v, x = .real v → v.IsInfinite → ∀ ts, tokenize (Utf8.encode x.text) = .ok ts →
      ∀ u ∈ ts, u.lexeme.number? = none := by
  constructor
  · intro hfinite
    rcases Lexer.number_of_next h hx hnumber with ⟨i, ht, rfl⟩ | ⟨v, ht, rfl, hv⟩
    · rw [ht]
      exact tokenize_text rfl (Lexeme.Legible.integer i)
    · rw [ht]
      exact tokenize_text rfl (Lexeme.Legible.real (hv.resolve_right (hfinite v rfl)))
  · intro v hv hinfinite ts hts
    rw [hv] at hts
    exact number?_of_infinite hinfinite hts

/-- The whole number below the least integer is a real, and is rounded to that integer. -/
theorem tokenize_number_below_least :
    let v := Binary64.ofRank true (1086 * 2 ^ 52)
    (∃ l', (Lexer.ofBytes (Byte.ofChars "-09223372036854775809".toList)).next =
      (.ok ⟨.real v, ⟨0, 21⟩⟩, l')) ∧ ¬ v.IsInfinite ∧
    Utf8.encode (Operand.real v).text = Byte.ofChars "-9223372036854775808.0".toList ∧
    tokenize (Byte.ofChars "-9223372036854775808.0".toList) =
      .ok [⟨.real v, ⟨0, 22⟩⟩, ⟨.eof, ⟨22, 22⟩⟩] := by
  intro v
  have hspells : Reading.Spells (Byte.ofChars "-09223372036854775809".toList) (.real v) :=
    Reading.spells_number (by decide +kernel)
  have hnext := Lexer.next_of_spells hspells
  have hfinite : ¬ v.IsInfinite := by
    show ¬ ∃ negative : Bool, v = .ofRank negative Magnitude.infinity
    decide +kernel
  have htext : Utf8.encode (Operand.real v).text =
      Byte.ofChars "-9223372036854775808.0".toList := by
    decide +kernel
  have htokens := (tokenize_number hnext rfl rfl).1 fun w hw => Operand.real.inj hw ▸ hfinite
  rw [htext] at htokens
  exact ⟨⟨_, hnext⟩, hfinite, htext, htokens⟩

/-- Ten to the power of 309 is read as a real. What is written for it is read as a keyword. -/
theorem tokenize_number_overflow :
    let v := Binary64.ofRank false Magnitude.infinity
    (∃ l', (Lexer.ofBytes (Byte.ofChars ('1' :: List.replicate 309 '0'))).next =
      (.ok ⟨.real v, ⟨0, 310⟩⟩, l')) ∧
    Utf8.encode (Operand.real v).text = Byte.ofChars ['i', 'n', 'f'] ∧
    tokenize (Byte.ofChars ['i', 'n', 'f']) =
      .ok [⟨.operator "inf", ⟨0, 3⟩⟩, ⟨.eof, ⟨3, 3⟩⟩] := by
  intro v
  have hliteral : Reading.Spells (Byte.ofChars ('1' :: List.replicate 309 '0')) (.real v) :=
    Reading.spells_number (by decide +kernel)
  have hlength : (Byte.ofChars ('1' :: List.replicate 309 '0')).length = 310 := by
    decide +kernel
  have hnext := Lexer.next_of_spells hliteral
  rw [hlength] at hnext
  have hword : Reading.Spells (Byte.ofChars ['i', 'n', 'f']) (.operator "inf") :=
    Reading.spells_word (by decide) (by decide) (by decide) (by decide +kernel)
  exact ⟨⟨_, hnext⟩, by decide +kernel, Lexer.tokenize_of_spells hword (by decide) (by decide)⟩

end Operand

end PageContent
