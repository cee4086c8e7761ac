import PageContent.Proofs.Activations
import PageContent.Proofs.Confinement
import PageContent.Proofs.ErrorPlaces
import PageContent.Proofs.Mutations

/-! # Progress

    Reading comes to an end, however malformed a stream is.

    * **One call of the lexer** takes some of the bytes that are left, and what is left
      begins where a word may end if image data is next. So even image data without any
      byte has something that sets it apart.
    * **All calls**: the lexer gets further with every token, up to the end of the stream,
      where it stays. So there are no more tokens than bytes, apart from the end.
    * **The descent** gets further with every operand, invocation and item, in every state
      that can come up. Each of its rules ends there, and so does every request.
-/

namespace PageContent

namespace Lexer

/-! ## One call of the lexer -/

/-- A state within `n` bytes. If image data is next, the word `ID` has just ended. -/
structure Within (n : Nat) (l : Lexer) : Prop where
  length : l.position + l.rest.length = n
  data : l.dataNext = true → WordEnds l.rest

variable {l l' : Lexer} {t : Token} {n : Nat}

theorem gap_le_length (l : Lexer) : l.gap ≤ l.rest.length := by
  unfold gap
  split
  · exact InlineData.separator_le_length l.rest
  · exact Reading.blanks_le_length false l.rest

/-- What is passed over at a fault comes before the other bytes, too. -/
theorem exists_rest_of_next_error {e : LexicalError} (h : l.next = (.error e, l')) :
    ∃ c, l.rest = c ++ l'.rest ∧ l'.position = l.position + c.length := by
  obtain ⟨f, offset, passed, hread, -, rfl⟩ := of_next_error h
  have hpassed : passed ≤ (l.rest.drop l.gap).length := by
    cases hdata : l.dataNext with
    | false =>
      rw [reading_plain hdata] at hread
      exact (Reading.of_fault hread).2
    | true =>
      rw [reading, if_pos hdata] at hread
      obtain ⟨-, -, rfl⟩ := Reading.of_inlineData_fault hread
      exact Nat.zero_le _
  have hgap := l.gap_le_length
  rw [List.length_drop] at hpassed
  refine ⟨l.rest.take (l.gap + passed), ?_, ?_⟩
  · rw [List.drop_drop, List.take_append_drop]
  · show l.position + l.gap + passed = _
    rw [List.length_take_of_le (by omega), Nat.add_assoc]

theorem exists_rest (l : Lexer) :
    ∃ c, l.rest = c ++ l.next.2.rest ∧ l.next.2.position = l.position + c.length := by
  cases hnext : l.next with
  | mk r l' =>
    cases r with
    | ok t => exact exists_rest_of_next hnext
    | error e => exact exists_rest_of_next_error hnext

/-- A word has ended where image data is next. -/
theorem wordEnds_of_dataNext (h : l.next.2.dataNext = true) : WordEnds l.next.2.rest := by
  obtain ⟨t, ht, hoperator⟩ := dataNext_iff.mp h
  have hnext : l.next = (.ok t, l.next.2) := Prod.ext ht rfl
  obtain ⟨bytes, position, dataNext⟩ := l
  cases dataNext with
  | false =>
    obtain ⟨g, c, -, -, hread, -⟩ := of_next_plain hnext
    rw [hoperator] at hread
    exact (Reading.wordEnds_of_token hread rfl).2
  | true =>
    obtain ⟨sep, data, gap, r, -, -, -, rfl, -⟩ := of_next_data hnext
    exact absurd hoperator (by simp)

theorem Within.next (h : Within n l) : Within n l.next.2 where
  length := by
    obtain ⟨c, hrest, hposition⟩ := l.exists_rest
    have hlength := h.length
    rw [hrest, List.length_append] at hlength
    omega
  data := wordEnds_of_dataNext

/-- Image data begins behind a byte that sets it apart, or it has a byte itself: what
    comes right after a word does not begin with `EI`. -/
theorem data_length_pos {bytes sep data gap r : List UInt8} (hbytes : WordEnds bytes)
    (h : bytes = sep ++ (data ++ (gap ++ (InlineData.mark ++ r))))
    (hsep : InlineData.separator bytes = sep.length) (hdelimits : InlineData.Delimits data gap r) :
    0 < sep.length + data.length := by
  rw [Nat.pos_iff_ne_zero]
  intro hzero
  obtain ⟨rfl, rfl⟩ : sep = [] ∧ data = [] := by
    simpa only [Nat.add_eq_zero_iff, List.length_eq_zero_iff] using hzero
  rcases hdelimits.2 with ⟨rfl, -⟩ | ⟨b, rfl, hblank, -⟩
  · subst h
    exact absurd (hbytes (Byte.ofChar 'E') rfl) (by decide)
  · subst h
    exact absurd hsep (by simp [InlineData.separator, hblank])

theorem Within.position_lt (h : Within n l) (hnext : l.next = (.ok t, l'))
    (ht : t.lexeme ≠ .eof) : l.position < l'.position := by
  obtain ⟨bytes, position, dataNext⟩ := l
  cases dataNext with
  | false =>
    obtain ⟨g, c, -, -, hread, -, hposition, -⟩ := of_next_plain hnext
    have hpos := (Reading.width_pos_of_token hread ht).1
    rw [hposition]
    show position < position + g.length + c.length
    omega
  | true =>
    obtain ⟨sep, data, gap, r, hbytes, hsep, hdelimits, -, rfl⟩ := of_next_data hnext
    have hpos := data_length_pos (h.data rfl) hbytes hsep hdelimits
    show position < position + sep.length + data.length
    omega

/-! ## All calls -/

theorem after_succ (l : Lexer) (i : Nat) : l.after (i + 1) = l.next.2.after i := by
  induction i with
  | zero => rfl
  | succ i ih => exact congrArg (fun m => m.next.2) ih

theorem call_succ (l : Lexer) (i : Nat) : l.call (i + 1) = l.next.2.call i :=
  congrArg (fun m => m.next.1) (l.after_succ i)

theorem within_after (bytes : List UInt8) (i : Nat) :
    Within bytes.length ((ofBytes bytes).after i) := by
  induction i with
  | zero => exact ⟨Nat.zero_add _, fun h => absurd h Bool.false_ne_true⟩
  | succ i ih => exact ih.next

/-- At the end of the stream the lexer stays. -/
theorem next_of_eof (h : l.next = (.ok t, l')) (ht : t.lexeme = .eof) :
    l'.next = (.ok t, l') := by
  obtain ⟨hdata, hblanks, hspan⟩ := of_next_eof h ht
  obtain ⟨width, -, hspan', rfl⟩ := of_next h
  have hgap : l.gap = l.rest.length := by
    rw [gap, hdata, if_neg Bool.false_ne_true, hblanks]
  obtain rfl : width = 0 := by
    have hstop := congrArg Span.stop (hspan'.symm.trans hspan)
    dsimp only at hstop
    omega
  obtain ⟨lexeme, span⟩ := t
  obtain rfl : lexeme = .eof := ht
  obtain rfl : span = ⟨l.position + l.rest.length, l.position + l.rest.length⟩ := hspan
  rw [hgap, List.drop_length, hdata]
  rfl

theorem call_of_eof (h : l.next.1 = .ok t) (ht : t.lexeme = .eof) (i : Nat) :
    l.call i = .ok t := by
  have hstays : ∀ i, l.after (i + 1) = l.next.2 := by
    intro i
    induction i with
    | zero => rfl
    | succ i ih =>
      have hnext := next_of_eof (Prod.ext h rfl : l.next = (.ok t, l.next.2)) ht
      show (l.after (i + 1)).next.2 = _
      rw [ih, hnext]
  cases i with
  | zero => exact h
  | succ i =>
    show (l.after (i + 1)).next.1 = _
    rw [hstays, next_of_eof (Prod.ext h rfl : l.next = (.ok t, l.next.2)) ht]

/-- What the next call does to a lexer of `n` bytes. -/
structure Progresses (n : Nat) (l : Lexer) : Prop where
  within : l.position ≤ n
  /-- The lexer does not go back, not even at a fault. -/
  forward : l.position ≤ l.next.2.position
  further : ∀ t, l.next.1 = .ok t → t.lexeme ≠ .eof → l.position < l.next.2.position
  /-- Once the end of the stream is found, it is what every call finds. -/
  last : ∀ t, l.next.1 = .ok t → t.lexeme = .eof → ∀ i, l.call i = .ok t

theorem Within.progresses (h : Within n l) : l.Progresses n where
  within := by
    have hlength := h.length
    omega
  forward := by
    obtain ⟨c, -, hposition⟩ := l.exists_rest
    omega
  further := fun t ht hne => h.position_lt (Prod.ext ht rfl : l.next = (.ok t, l.next.2)) hne
  last := fun t ht heof => call_of_eof ht heof

/-- After `k` calls that find tokens, the next one finds the end of the stream or a fault.
    In the first case the tokens of all these calls have been found, in the second case the
    fault. -/
structure Tokenizes (l : Lexer) (k : Nat) (found : Except LexicalError (List Token)) : Prop where
  tokens : ∀ i < k, ∃ t, l.call i = .ok t ∧ t.lexeme ≠ .eof
  found : match found with
    | .ok ts => ts.map .ok = (List.range (k + 1)).map l.call ∧
        ∃ t, l.call k = .ok t ∧ t.lexeme = .eof
    | .error e => l.call k = .error e

theorem Tokenizes.cons {found : Except LexicalError (List Token)} {k : Nat}
    (h : l'.Tokenizes k found) (hnext : l.next = (.ok t, l')) (ht : t.lexeme ≠ .eof) :
    l.Tokenizes (k + 1) (found.map (t :: ·)) := by
  have hfirst : l.call 0 = .ok t := congrArg Prod.fst hnext
  have hlater : ∀ i, l.call (i + 1) = l'.call i := by
    intro i
    rw [call_succ, hnext]
  refine ⟨?_, ?_⟩
  · intro i hi
    cases i with
    | zero => exact ⟨t, hfirst, ht⟩
    | succ i =>
      rw [hlater]
      exact h.tokens i (Nat.lt_of_succ_lt_succ hi)
  · have hfound := h.found
    cases found with
    | error e => exact (hlater k).trans hfound
    | ok ts =>
      obtain ⟨htokens, hlast⟩ := hfound
      refine ⟨?_, (hlater k).symm ▸ hlast⟩
      rw [List.range_succ_eq_map, List.map_cons, List.map_cons, hfirst, htokens, List.map_map]
      exact congrArg (_ :: ·) (List.map_congr_left fun i _ => (hlater i).symm)

/-- Every token takes a byte at least. -/
theorem exists_tokenizes (h : Within n l) :
    ∃ k, l.position + k ≤ n ∧ l.Tokenizes k (Scan.ofLexer l).tokens := by
  have hwithin := h.progresses.within
  fun_induction Scan.ofLexer l with
  | case1 l t l' hnext heof =>
    have hcall : l.call 0 = .ok t := congrArg Prod.fst hnext
    refine ⟨0, hwithin, ?_, ?_, t, hcall, heof⟩
    · exact fun i hi => absurd hi (Nat.not_lt_zero i)
    · exact congrArg (fun r => [r]) hcall.symm
  | case2 l t l' hnext hne _ ih =>
    have hl' : l.next.2 = l' := congrArg Prod.snd hnext
    have hnext' : Within n l' := hl' ▸ h.next
    obtain ⟨k, hk, htokenizes⟩ := ih hnext' hnext'.progresses.within
    have hlt := h.position_lt hnext hne
    refine ⟨k + 1, by omega, ?_⟩
    have hcons := htokenizes.cons hnext hne
    rw [Scan.tokens]
    cases hrest : (Scan.ofLexer l').tokens <;> rw [hrest] at hcons <;> exact hcons
  | case3 l e l' hnext hlt ih =>
    exact ⟨0, hwithin, fun i hi => absurd hi (Nat.not_lt_zero i), congrArg Prod.fst hnext⟩
  | case4 l e l' hnext hge =>
    exact ⟨0, hwithin, fun i hi => absurd hi (Nat.not_lt_zero i), congrArg Prod.fst hnext⟩

end Lexer

namespace Descent

/-! ## The descent -/

/-- The call ends, and the position is further if it succeeds. -/
def Advances {α : Type} (x : Call α) (d : Descent) : Prop :=
  ∃ r d', x d = some (r, d') ∧ ∀ a, r = .ok a → d.position < d'.position

theorem Spends.advances {α : Type} {x : Call α} {d : Descent} {P : α → List Token → Prop}
    (h : Spends x d P) (hP : ∀ a ts, P a ts → ts ≠ []) : Advances x d := by
  obtain ⟨r, d', hrun, -, hspent⟩ := h
  refine ⟨r, d', hrun, fun a ha => ?_⟩
  obtain ⟨ts, huses, hp⟩ := hspent a ha
  have hpos := List.length_pos_iff.mpr (hP a ts hp)
  rw [huses.position]
  omega

/-- What can happen in a state with some activities under way. -/
structure Progresses (o : Options) (stack : List Activity) (d : Descent) : Prop where
  operand : Advances operand d
  invocation : ∀ p, Advances (invocation p) d
  undefinedInvocation : Advances undefinedInvocation d
  item : ∀ level glyph, Advances (item level glyph) d
  /-- Groups and containers are read within each other no deeper than the options allow. -/
  groups : stack.countP Activity.readsGroup ≤ min o.maxNesting 100
  containers : stack.countP Activity.readsContainer ≤ min o.maxNesting 100
  /-- Every rule ends. -/
  ends : ∀ {α : Type} {x : Call α}, IsRule x → ∃ r d', x d = some (r, d')

theorem Nested.progresses {o : Options} {stack : List Activity} {d : Descent}
    (h : Nested o stack d) : Progresses o stack d where
  operand :=
    (operand_spends (containers_spend d.feed.size) d h.consistent (Nat.le_refl _)).advances
      fun _ _ hts => hts.1
  invocation p := (invocation_spends h.consistent p).advances fun _ _ hleads => hleads.ne_nil
  undefinedInvocation :=
    (undefinedInvocation_spends h.consistent).advances fun _ _ hleads => hleads.ne_nil
  item level glyph :=
    (item_spends h.consistent level glyph).advances fun _ _ hbegins => hbegins.ne_nil
  groups := h.groups ▸ h.groups_le
  containers := h.containers ▸ h.containers_le
  ends hx := by
    obtain ⟨r, d', hrun, -⟩ := hx.spends h.consistent
    exact ⟨r, d', hrun⟩

/-- **Progress**: the lexer never goes back and never leaves the stream, however many calls
    there are; every token takes it further, up to the end of the stream, which it finds
    again and again. So the token list is complete, or a fault is found, after no more
    calls than there are bytes and one. In every state that can come up in a session, each
    operand, invocation and item that is read takes the descent further, nothing is nested
    deeper than the options allow, and every rule ends. Every request is answered. -/
theorem reading_progresses (o : Options) (bytes : List UInt8) (log : ErrorLog) :
    (∀ i, ((Lexer.ofBytes bytes).after i).Progresses bytes.length) ∧
      (∃ k ≤ bytes.length, (Lexer.ofBytes bytes).Tokenizes k (tokenize bytes)) ∧
      (∀ ts, tokenize bytes = .ok ts → ts.length ≤ bytes.length + 1) ∧
      (∀ stack d, Active o bytes log stack d → Progresses o stack d) ∧
      ∀ rs, ∃ steps, (start o bytes log).answers rs = some steps ∧ steps.length = rs.length := by
  have htokenizes : ∃ k ≤ bytes.length, (Lexer.ofBytes bytes).Tokenizes k (tokenize bytes) := by
    obtain ⟨k, hk, htokenizes⟩ := Lexer.exists_tokenizes (Lexer.within_after bytes 0)
    exact ⟨k, by omega, htokenizes⟩
  refine ⟨fun i => (Lexer.within_after bytes i).progresses, htokenizes, ?_, ?_, ?_⟩
  · intro ts hts
    obtain ⟨k, hk, -, hfound⟩ := htokenizes
    rw [hts] at hfound
    have hlength := congrArg List.length hfound.1
    rw [List.length_map, List.length_map, List.length_range] at hlength
    omega
  · exact fun stack d h => h.nested.progresses
  · intro rs
    obtain ⟨steps, hanswers, hlength, -⟩ := answers_start o bytes log rs
    exact ⟨steps, hanswers, hlength⟩

/-- Image data without a byte takes the lexer past the blank in front of it, and the start
    of the stream is a state in which everything ends. -/
theorem reading_progresses_empty_data :
    let l := Lexer.ofBytes (Byte.ofChars "ID EI".toList)
    l.call 1 = .ok ⟨.inlineData [], ⟨3, 3⟩⟩ ∧ (l.after 1).position < (l.after 2).position ∧
      Progresses Profile.default.options []
        (start Profile.default.options (Byte.ofChars "ID EI".toList) .empty) := by
  intro l
  have hdata : l.call 1 = .ok ⟨.inlineData [], ⟨3, 3⟩⟩ := by decide +kernel
  obtain ⟨hlexer, -, -, hdescent, -⟩ :=
    reading_progresses Profile.default.options (Byte.ofChars "ID EI".toList) .empty
  exact ⟨hdata, (hlexer 1).further _ hdata (by decide), hdescent [] _ .start⟩

end Descent

end PageContent
