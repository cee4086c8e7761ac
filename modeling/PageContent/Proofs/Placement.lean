import PageContent.Proofs.Spelling

/-! # Image data in its place

    The lexer finds image data between `ID` and `EI`, and nowhere else. So calls
    whose lexemes were found by a lexer can be written.

    * **Well placed**: a list of lexemes in which all data has its place.
    * **Tokens** of a stream are well placed.
    * **Calls** take their data from the front of the call after `ID`, since no
      operator comes before the data.
-/

namespace PageContent

/-- Legible lexemes, and data between its operators. -/
inductive Lexeme.WellPlaced : List Lexeme → Prop where
  | nil : WellPlaced []
  | cons {l : Lexeme} {ls : List Lexeme} (hl : l.Legible) (hid : l ≠ .operator "ID")
      (hls : WellPlaced ls) : WellPlaced (l :: ls)
  | image {data : List UInt8} {ls : List Lexeme} (hdata : InlineData.Unterminated data)
      (hls : WellPlaced ls) :
      WellPlaced (.operator "ID" :: .inlineData data :: .operator "EI" :: ls)

/-! ## Tokens -/

theorem InlineData.Delimits.unterminated {data gap r : List UInt8} (h : Delimits data gap r) :
    Unterminated data := by
  obtain ⟨-, ⟨-, rfl⟩ | ⟨b, -, -, hdata⟩⟩ := h
  · unfold Unterminated
    decide
  · exact hdata

namespace Lexer

/-- The next token of a stream without faults: its end, or the first of the others. -/
theorem exists_next {l : Lexer} {ts : List Token} {eof : Token} (heof : eof.lexeme = .eof)
    (h : (Scan.ofLexer l).tokens = .ok (ts ++ [eof])) :
    ∃ t l', l.next = (.ok t, l') ∧ (ts = [] ∧ t.lexeme = .eof ∨
      t.lexeme ≠ .eof ∧ ∃ us, ts = t :: us ∧
        (Scan.ofLexer l').tokens = .ok (us ++ [eof])) := by
  cases ts with
  | nil =>
    obtain ⟨l', l'', hreach, hnext, -⟩ := @exists_reaches l [] [] eof h
    cases hreach
    exact ⟨eof, l'', hnext, .inl ⟨rfl, heof⟩⟩
  | cons t us =>
    obtain ⟨l', l'', hreach, hnext, hlast, hothers⟩ := @exists_reaches l [] (us ++ [eof]) t h
    cases hreach
    by_cases ht : t.lexeme = .eof
    · exact absurd (hlast ht) (by simp)
    · exact ⟨t, l'', hnext, .inr ⟨ht, us, rfl, hothers ht⟩⟩

/-- After `ID` there come the data and `EI`. -/
theorem exists_image {l : Lexer} {ts : List Token} {eof : Token} (heof : eof.lexeme = .eof)
    (h : (Scan.ofLexer l).tokens = .ok (ts ++ [eof])) (hl : l.dataNext = true) :
    ∃ t t' us data l', ts = t :: t' :: us ∧ t.lexeme = .inlineData data ∧
      t'.lexeme = .operator "EI" ∧ InlineData.Unterminated data ∧ l'.dataNext = false ∧
      (Scan.ofLexer l').tokens = .ok (us ++ [eof]) := by
  obtain ⟨bytes, position, dataNext⟩ := l
  subst hl
  obtain ⟨t, l', hnext, hthen⟩ := exists_next heof h
  obtain ⟨sep, data, gap, r, -, -, hdelimits, ht, rfl⟩ := of_next_data hnext
  -- data is not the end of the stream
  rcases hthen with ⟨-, hend⟩ | ⟨-, us, rfl, htokens⟩
  · rw [ht] at hend
    exact absurd hend (by simp)
  · -- the data was delimited by its terminator, which is read next
    obtain ⟨t', l'', hnext', hthen'⟩ := exists_next heof htokens
    rw [next_mark hdelimits] at hnext'
    obtain ⟨ht', rfl⟩ := Prod.mk.inj hnext'
    obtain rfl := Except.ok.inj ht'
    rcases hthen' with ⟨-, hend⟩ | ⟨-, vs, rfl, htokens'⟩
    · exact absurd hend (by simp)
    · exact ⟨t, _, vs, data, _, rfl, by rw [ht], rfl, hdelimits.unterminated, rfl, htokens'⟩

/-- **Tokens** are well placed, if no real is infinite. -/
theorem wellPlaced_of_tokens {l : Lexer} {ts : List Token} {eof : Token}
    (heof : eof.lexeme = .eof) (h : (Scan.ofLexer l).tokens = .ok (ts ++ [eof]))
    (hl : l.dataNext = false)
    (hfinite : ∀ t ∈ ts, ∀ x, t.lexeme = .real x → ¬ x.IsInfinite) :
    Lexeme.WellPlaced (ts.map (·.lexeme)) := by
  -- on the length, since an image takes three tokens at once
  induction hn : ts.length using Nat.strongRecOn generalizing l ts with
  | _ n ih
  obtain ⟨bytes, position, dataNext⟩ := l
  subst hl
  obtain ⟨t, l', hnext, hthen⟩ := exists_next heof h
  rcases hthen with ⟨rfl, -⟩ | ⟨hne, us, rfl, htokens⟩
  · exact Lexeme.WellPlaced.nil
  · obtain ⟨g, c, -, -, hread, -, -, hdata⟩ := of_next_plain hnext
    have hlegible : t.lexeme.Legible := by
      match hbytes : c ++ l'.rest, (Reading.width_pos_of_token hread hne).2 with
      | b :: rest, _ =>
        rw [hbytes] at hread
        exact Reading.legible_of_token hread (hfinite t List.mem_cons_self)
    -- only after `ID` the lexer looks for data
    by_cases hid : t.lexeme = .operator "ID"
    · rw [decide_eq_true hid] at hdata
      obtain ⟨t', t'', vs, data, l'', rfl, ht', ht'', hunterminated, hl'', htokens'⟩ :=
        exists_image heof htokens hdata
      have hlt : vs.length < n := by
        simp only [List.length_cons] at hn
        omega
      have hrest := ih vs.length hlt htokens' hl'' (fun v hv =>
        hfinite v (List.mem_cons_of_mem _ (List.mem_cons_of_mem _ (List.mem_cons_of_mem _ hv)))) rfl
      rw [List.map_cons, List.map_cons, List.map_cons, hid, ht', ht'']
      exact Lexeme.WellPlaced.image hunterminated hrest
    · rw [decide_eq_false hid] at hdata
      have hlt : us.length < n := by
        simp only [List.length_cons] at hn
        omega
      have hrest := ih us.length hlt htokens hdata
        (fun v hv => hfinite v (List.mem_cons_of_mem _ hv)) rfl
      exact Lexeme.WellPlaced.cons hlegible hid hrest

end Lexer

/-! ## Calls -/

/-- Lexemes of operands: none of them is an operator. -/
def Lexeme.NoOperators (ls : List Lexeme) : Prop :=
  ∀ keyword, Lexeme.operator keyword ∉ ls

mutual

/-- No token of an operand ends a run of operands. -/
theorem Operand.not_endsOperands (x : Operand) : ∀ l ∈ x.lexemes, l.endsOperands = false := by
  intro l hl
  match x with
  | .array items =>
    rcases List.mem_cons.mp hl with rfl | hl
    · rfl
    rcases List.mem_append.mp hl with hl | hl
    · exact not_endsOperands_items items l hl
    · exact List.mem_singleton.mp hl ▸ rfl
  | .dictionary entries =>
    rcases List.mem_cons.mp hl with rfl | hl
    · rfl
    rcases List.mem_append.mp hl with hl | hl
    · exact not_endsOperands_entries entries l hl
    · exact List.mem_singleton.mp hl ▸ rfl
  | .string .literal _ | .string .hex _ => exact List.mem_singleton.mp hl ▸ rfl
  | .integer _ | .real _ | .boolean _ | .null | .name _ | .inlineData _ =>
    exact List.mem_singleton.mp hl ▸ rfl

theorem Operand.not_endsOperands_items (xs : List Operand) :
    ∀ l ∈ Operand.lexemesOfItems xs, l.endsOperands = false := by
  intro l hl
  match xs with
  | [] => exact absurd hl List.not_mem_nil
  | x :: rest =>
    rcases List.mem_append.mp hl with hl | hl
    · exact x.not_endsOperands l hl
    · exact not_endsOperands_items rest l hl

theorem Operand.not_endsOperands_entries (es : List (String × Operand)) :
    ∀ l ∈ Operand.lexemesOfEntries es, l.endsOperands = false := by
  intro l hl
  match es with
  | [] => exact absurd hl List.not_mem_nil
  | (key, x) :: rest =>
    rcases List.mem_cons.mp hl with rfl | hl
    · rfl
    rcases List.mem_append.mp hl with hl | hl
    · exact x.not_endsOperands l hl
    · exact not_endsOperands_entries rest l hl

end

theorem Operand.noOperators (x : Operand) : Lexeme.NoOperators x.lexemes := by
  intro keyword h
  exact absurd (x.not_endsOperands _ h) (by simp [Lexeme.endsOperands])

namespace Lexeme

/-- Up to the first operator lexemes are legible; then either the list goes on, or an
    image comes. -/
theorem WellPlaced.of_append {ls ms : List Lexeme} {keyword : String}
    (h : WellPlaced (ls ++ .operator keyword :: ms)) (hls : NoOperators ls) :
    (∀ l ∈ ls, l.Legible) ∧
      (Legible (.operator keyword) ∧ keyword ≠ "ID" ∧ WellPlaced ms ∨
        keyword = "ID" ∧ ∃ data ns, ms = .inlineData data :: .operator "EI" :: ns ∧
          InlineData.Unterminated data ∧ WellPlaced ns) := by
  induction ls with
  | nil =>
    refine ⟨fun l hl => absurd hl List.not_mem_nil, ?_⟩
    rw [List.nil_append] at h
    -- the operator is legible by itself or begins an image
    generalize hlist : Lexeme.operator keyword :: ms = all at h
    cases h with
    | nil => exact absurd hlist (by simp)
    | cons hl hid hms =>
      obtain ⟨rfl, rfl⟩ := List.cons.inj hlist
      exact .inl ⟨hl, fun hk => hid (by rw [hk]), hms⟩
    | image hdata hns =>
      obtain ⟨hk, rfl⟩ := List.cons.inj hlist
      exact .inr ⟨Lexeme.operator.inj hk, _, _, rfl, hdata, hns⟩
  | cons l ls ih =>
    rw [List.cons_append] at h
    generalize hlist : l :: (ls ++ Lexeme.operator keyword :: ms) = all at h
    cases h with
    | nil => exact absurd hlist (by simp)
    | cons hl hid hrest =>
      obtain ⟨rfl, rfl⟩ := List.cons.inj hlist
      obtain ⟨hlegible, hthen⟩ := ih hrest fun k hk => hls k (List.mem_cons_of_mem l hk)
      exact ⟨List.forall_mem_cons.mpr ⟨hl, hlegible⟩, hthen⟩
    | image hdata hns =>
      obtain ⟨hk, -⟩ := List.cons.inj hlist
      exact absurd (hk ▸ List.mem_cons_self) (hls "ID")

end Lexeme

namespace Invocation

theorem noOperators_operands (xs : List Operand) :
    Lexeme.NoOperators (xs.flatMap Operand.lexemes) := by
  intro keyword h
  obtain ⟨x, -, hx⟩ := List.mem_flatMap.mp h
  exact x.noOperators keyword hx

/-- An operand that begins with data is nothing else. -/
theorem eq_inlineData_of_lexemes {x : Operand} {data : List UInt8} {ls : List Lexeme}
    (h : x.lexemes = .inlineData data :: ls) : x = .inlineData data ∧ ls = [] := by
  match x with
  | .inlineData bytes =>
    obtain ⟨hdata, hls⟩ := List.cons.inj h
    exact ⟨congrArg Operand.inlineData (Lexeme.inlineData.inj hdata), hls.symm⟩
  | .string .literal _ | .string .hex _ => exact absurd (List.cons.inj h).1 (by simp)
  | .integer _ | .real _ | .boolean _ | .null | .name _ | .array _ | .dictionary _ =>
    exact absurd (List.cons.inj h).1 (by simp)

/-- The call after `ID` has the data as its only operand. -/
theorem exists_end_of_image {calls : List Invocation} {data : List UInt8} {ns : List Lexeme}
    (h : calls.flatMap lexemes = .inlineData data :: .operator "EI" :: ns) :
    ∃ fin rest, calls = fin :: rest ∧ fin.operands = [.inlineData data] ∧ fin.keyword = "EI" ∧
      rest.flatMap lexemes = ns := by
  match calls with
  | [] => exact absurd h (by simp)
  | fin :: rest =>
    refine ⟨fin, rest, rfl, ?_⟩
    rw [List.flatMap_cons, lexemes, List.append_assoc, List.singleton_append] at h
    -- the data comes from the first operand, since an operator is not data
    cases hoperands : fin.operands with
    | nil =>
      rw [hoperands] at h
      exact absurd (List.cons.inj h).1 (by simp)
    | cons x xs =>
      obtain ⟨l, ls, hx⟩ := List.exists_cons_of_ne_nil x.lexemes_ne_nil
      rw [hoperands, List.flatMap_cons, List.append_assoc, hx] at h
      obtain ⟨rfl, htail⟩ := List.cons.inj h
      obtain ⟨rfl, rfl⟩ := eq_inlineData_of_lexemes hx
      have hafter : xs.flatMap Operand.lexemes ++
          .operator fin.keyword :: rest.flatMap lexemes = .operator "EI" :: ns := htail
      have hxs : xs = [] := by
        cases xs with
        | nil => rfl
        | cons y ys =>
          -- the operator would be a lexeme of an operand
          obtain ⟨m, ms, hy⟩ := List.exists_cons_of_ne_nil y.lexemes_ne_nil
          rw [List.flatMap_cons, hy] at hafter
          obtain ⟨rfl, -⟩ := List.cons.inj hafter
          exact absurd (hy ▸ List.mem_cons_self) (y.noOperators "EI")
      subst hxs
      obtain ⟨hkeyword, hrest⟩ := List.cons.inj hafter
      exact ⟨rfl, Lexeme.operator.inj hkeyword, hrest⟩

/-- **Calls** with well placed lexemes can be written. -/
theorem areLegible_of_wellPlaced {calls : List Invocation}
    (h : Lexeme.WellPlaced (calls.flatMap lexemes)) : AreLegible calls := by
  induction hn : calls.length using Nat.strongRecOn generalizing calls with
  | _ n ih
  match calls with
  | [] => exact AreLegible.nil
  | call :: calls =>
    rw [List.flatMap_cons, lexemes, List.append_assoc, List.singleton_append] at h
    obtain ⟨hlegible, hthen⟩ := h.of_append (noOperators_operands call.operands)
    have hoperands : ∀ x ∈ call.operands, x.Legible :=
      fun x hx l hl => hlegible l (List.mem_flatMap.mpr ⟨x, hx, hl⟩)
    -- an image takes two calls, any other operator one
    rcases hthen with ⟨hkeyword, hid, hrest⟩ | ⟨hid, data, ns, hns, hdata, hrest⟩
    · have hlt : calls.length < n := by
        simp only [List.length_cons] at hn
        omega
      have hcalls := ih calls.length hlt hrest rfl
      cases hkeyword with
      | operator hk => exact AreLegible.call hoperands hk hid hcalls
    · obtain ⟨fin, rest, rfl, hfin, hend, rfl⟩ := exists_end_of_image hns
      have hlt : rest.length < n := by
        simp only [List.length_cons] at hn
        omega
      exact AreLegible.image hoperands hid hdata hfin hend (ih rest.length hlt hrest rfl)

end Invocation

end PageContent
