import PageContent.Proofs.Laziness

/-! # Where errors lie

    Every error lies in the stream.

    * **Faults** are found at a byte of the stream. Only the end of image data can be
      missed at the end of the stream.
    * **Other errors** lie among the tokens that are read first, up to the end of the
      stream.
-/

namespace PageContent

/-! ## Faults -/

/-- An escape that is none starts within the name. -/
theorem Name.lt_length_of_unescape {bytes : List UInt8} {offset : Nat}
    (h : unescape bytes = .error offset) : offset < bytes.length := by
  fun_induction unescape bytes generalizing offset with
  | case1 => exact absurd h (by simp)
  | case2 rest hpair =>
    rw [← Except.error.inj h]
    exact Nat.succ_pos _
  | case3 => exact absurd h (by simp)
  | case4 rest escaped hpair offset' hrest ih =>
    have hlt := ih hrest
    rw [List.length_drop] at hlt
    rw [← Except.error.inj h, List.length_cons]
    omega
  | case5 => exact absurd h (by simp)
  | case6 b rest hb offset' hrest ih =>
    rw [← Except.error.inj h, List.length_cons]
    exact Nat.succ_lt_succ (ih hrest)

namespace Reading

variable {bytes rest : List UInt8} {f : LexicalFault} {offset passed : Nat}

theorem word_length_le (bytes : List UInt8) : (word bytes).length ≤ bytes.length :=
  (List.takeWhile_prefix _).length_le

theorem of_numeral_fault (h : numeral bytes = .fault f offset passed) :
    offset = 0 ∧ passed ≤ bytes.length := by
  unfold numeral at h
  split at h
  · exact absurd h (by simp)
  · obtain ⟨-, rfl, rfl⟩ := Reading.fault.inj h
    exact ⟨rfl, word_length_le bytes⟩

theorem of_literal_fault (h : literal rest = .fault f offset passed) :
    offset = 0 ∧ passed ≤ rest.length + 1 := by
  unfold literal at h
  split at h
  · exact absurd h (by simp)
  · obtain ⟨-, rfl, rfl⟩ := Reading.fault.inj h
    exact ⟨rfl, Nat.le_refl _⟩

/-- A byte that does not belong in the brackets is one of those after the first. -/
theorem of_hex_fault (h : hex rest = .fault f offset passed) :
    offset ≤ rest.length ∧ passed ≤ rest.length + 1 := by
  have hinner : (HexString.inner rest).length ≤ rest.length :=
    (List.takeWhile_prefix _).length_le
  unfold hex at h
  dsimp only at h
  split at h
  · obtain ⟨-, rfl, rfl⟩ := Reading.fault.inj h
    exact ⟨Nat.zero_le _, Nat.succ_le_succ hinner⟩
  · next b after hafter =>
    split at h
    · exact absurd h (by simp)
    · have hlength := congrArg List.length hafter
      rw [List.length_drop, List.length_cons] at hlength
      obtain ⟨-, rfl, rfl⟩ := Reading.fault.inj h
      omega

theorem of_name_fault (h : name rest = .fault f offset passed) :
    offset ≤ rest.length ∧ passed ≤ rest.length + 1 := by
  unfold name at h
  split at h
  · exact absurd h (by simp)
  · next offset' hescape =>
    have hlt := Name.lt_length_of_unescape hescape
    have hword := word_length_le rest
    obtain ⟨-, rfl, rfl⟩ := Reading.fault.inj h
    omega

/-- What is no token is found to be none at one of its bytes, and no more bytes are passed
    over than there are. -/
theorem of_fault (h : ofBytes bytes = .fault f offset passed) :
    offset < bytes.length ∧ passed ≤ bytes.length := by
  match bytes with
  | [] => exact absurd h (by simp [ofBytes])
  | b :: rest =>
    have hfirst {n : Nat} (hzero : offset = 0 ∧ passed ≤ n) (hn : n ≤ rest.length + 1) :
        offset < rest.length + 1 ∧ passed ≤ rest.length + 1 :=
      ⟨hzero.1 ▸ Nat.succ_pos _, Nat.le_trans hzero.2 hn⟩
    have hstay (hzero : offset = 0 ∧ passed = 0) :
        offset < rest.length + 1 ∧ passed ≤ rest.length + 1 :=
      hfirst ⟨hzero.1, Nat.le_of_eq hzero.2⟩ (Nat.zero_le _)
    rw [List.length_cons]
    simp only [ofBytes] at h
    -- the readings in the order in which they are tried
    split at h
    · exact hfirst (of_numeral_fault h) (Nat.le_refl _)
    split at h
    · exact hfirst (of_literal_fault h) (Nat.le_refl _)
    split at h
    · split at h
      · exact absurd h (by simp)
      · exact (of_hex_fault h).imp_left Nat.lt_succ_of_le
    split at h
    · split at h
      · exact absurd h (by simp)
      · exact hstay ((Reading.fault.inj h).2.imp Eq.symm Eq.symm)
    split at h
    · exact absurd h (by simp)
    split at h
    · exact absurd h (by simp)
    split at h
    · exact (of_name_fault h).imp_left Nat.lt_succ_of_le
    split at h
    · exact absurd h (by simp)
    · exact hstay ((Reading.fault.inj h).2.imp Eq.symm Eq.symm)

theorem of_inlineData_fault (h : inlineData bytes = .fault f offset passed) :
    f = .unterminatedData ∧ offset = 0 ∧ passed = 0 := by
  unfold inlineData at h
  split at h
  · exact absurd h (by simp)
  · obtain ⟨rfl, rfl, rfl⟩ := Reading.fault.inj h
    exact ⟨rfl, rfl, rfl⟩

end Reading

/-- **Faults** are found in front of a byte that is left, or image data have no end. -/
theorem Lexer.fault_position {l l' : Lexer} {e : LexicalError} (h : l.next = (.error e, l')) :
    e.position < l.position + l.rest.length ∨
      e.position ≤ l.position + l.rest.length ∧ e.fault = .unterminatedData := by
  obtain ⟨f, offset, passed, hread, rfl, -⟩ := of_next_error h
  cases hdata : l.dataNext with
  | false =>
    rw [reading_plain hdata] at hread
    have hlt := (Reading.of_fault hread).1
    rw [List.length_drop] at hlt
    refine .inl ?_
    show l.position + l.gap + offset < l.position + l.rest.length
    omega
  | true =>
    rw [reading, if_pos hdata] at hread
    obtain ⟨rfl, rfl, -⟩ := Reading.of_inlineData_fault hread
    have hgap : l.gap ≤ l.rest.length := by
      rw [gap, if_pos hdata]
      exact InlineData.separator_le_length l.rest
    refine .inr ⟨?_, rfl⟩
    show l.position + l.gap + 0 ≤ l.position + l.rest.length
    omega

/-! ## Errors -/

section

variable {bytes : List UInt8} {e : ParseError}

/-- The error of a production is the first fault of the stream, or it is about tokens in
    front of that fault. -/
theorem accounts_parseAs {p : Production} (h : Node.parseAs p bytes = .error e) :
    (Feed.ofBytes bytes).Accounts [] e := by
  unfold Node.parseAs at h
  split at h
  · exact absurd h (by simp)
  · next e' left hread =>
    obtain rfl := Except.error.inj h
    exact Recognizer.accounts_readAll (Feed.readFirst_tokens bytes).inOrder hread

/-- The first fault of a stream lies in it. -/
theorem position_of_fault? {fault : LexicalError} (h : (Feed.ofBytes bytes).fault? = some fault) :
    fault.position < bytes.length ∨
      fault.position ≤ bytes.length ∧ fault.fault = .unterminatedData := by
  obtain ⟨-, l, l', hreach, hnext⟩ := Feed.exists_reaches_of_tokenize (Feed.tokenize_of_fault? h)
  rw [← hreach.position_add_length]
  exact Lexer.fault_position hnext

/-- An error among the first tokens of a stream lies in it. -/
theorem ReadFirst.span_of_liesIn {ts : List Token} (h : ReadFirst bytes ts) (hlies : e.LiesIn ts) :
    e.span.start ≤ e.span.stop ∧ e.span.stop ≤ bytes.length := by
  obtain ⟨t, ht, hstop⟩ := hlies.exists_stop
  refine ⟨?_, hstop ▸ h.stop_le t ht⟩
  obtain ⟨before, seg, after, rfl, hcovers⟩ := hlies.exists_covers
  exact hcovers.start_le_stop h.inOrder.right.left

/-- **Places of errors**: every error lies in the stream. A fault is found at a byte, or it
    is the missing end of image data and may be found at the end. Any other error is about
    some of the tokens that are read first, the end of the stream included. -/
theorem error_lies_in_stream
    (h : (∃ o, ContentStream.parse o bytes = .error e) ∨ ∃ p, Node.parseAs p bytes = .error e) :
    e.offset ≤ bytes.length ∧
      (∀ fault, e = .lexical fault → e.span = ⟨fault.position, fault.position + 1⟩ ∧
        fault.position ≤ bytes.length ∧
        (fault.position = bytes.length → fault.fault = .unterminatedData)) ∧
      (e.kind ≠ .lexical → e.span.start ≤ e.span.stop ∧ e.span.stop ≤ bytes.length ∧
        ∃ ts, ReadFirst bytes ts ∧ e.LiesIn ts) := by
  have haccounts : (Feed.ofBytes bytes).Accounts [] e := by
    rcases h with ⟨o, hparse⟩ | ⟨p, hparse⟩
    · exact ContentStream.accounts_parse hparse
    · exact accounts_parseAs hparse
  rcases haccounts with ⟨fault, rfl, hfault⟩ | hlies
  · have hposition := position_of_fault? hfault
    have hle : fault.position ≤ bytes.length := by omega
    refine ⟨hle, ?_, fun hkind => absurd rfl hkind⟩
    intro fault' heq
    obtain rfl := ParseError.lexical.inj heq
    refine ⟨rfl, hle, ?_⟩
    intro hend
    exact (hposition.resolve_left (by omega)).2
  · have hfirst := Feed.readFirst_tokens bytes
    obtain ⟨hforward, hstop⟩ := hfirst.span_of_liesIn hlies
    refine ⟨Nat.le_trans hforward hstop, ?_, fun _ => ⟨hforward, hstop, _, hfirst, hlies⟩⟩
    intro fault heq
    exact absurd (congrArg ParseError.kind heq) hlies.kind_ne

/-- An array where a number is demanded, and image data without any byte. -/
theorem error_lies_in_stream_array :
    (∃ e, Node.parseAs .content (Byte.ofChars "q [1] w".toList) = .error e ∧
      e = .type ⟨2, 5⟩ "w" 0 (.exactly .number) .array ∧
      ∃ ts, ReadFirst (Byte.ofChars "q [1] w".toList) ts ∧ e.LiesIn ts) ∧
    ∃ e, Node.parseAs .inlineImage (Byte.ofChars "BI ID".toList) = .error e ∧
      e = .lexical ⟨5, .unterminatedData⟩ ∧ e.offset ≤ 5 := by
  have hfound {a : Except ParseError Node} {e : ParseError}
      (h : Session.error? a = some e) : a = .error e := by
    cases a with
    | ok n => exact absurd h (by simp [Session.error?])
    | error e' => exact congrArg Except.error (Option.some.inj h)
  have htype : Node.parseAs .content (Byte.ofChars "q [1] w".toList) =
      .error (.type ⟨2, 5⟩ "w" 0 (.exactly .number) .array) := hfound (by decide +kernel)
  have hdata : Node.parseAs .inlineImage (Byte.ofChars "BI ID".toList) =
      .error (.lexical ⟨5, .unterminatedData⟩) := hfound (by decide +kernel)
  obtain ⟨-, -, hlies⟩ := error_lies_in_stream (.inr ⟨_, htype⟩)
  obtain ⟨-, -, hts⟩ := hlies (by decide)
  exact ⟨⟨_, htype, rfl, hts⟩, _, hdata, rfl, (error_lies_in_stream (.inr ⟨_, hdata⟩)).1⟩

end

end PageContent
