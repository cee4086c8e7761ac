import PageContent.Proofs.Placement
import PageContent.Proofs.Unplaced

/-! # Streams, there and back

    A stream that has been read is written so that it is read as the same tree.

    * **Numbers** are written in decimal and rounded to themselves. Only an infinite
      real has no digits, so a tree must not have one.
    * **Tokens**: the bytes that are written are read as the lexemes of the calls, and
      so are the bytes that the tree came from.
    * **Tree**: by the grammar the same lexemes are the same tree, places aside.
-/

namespace PageContent

/-! ## Operands within operands -/

/-- `x.Within y`: the operand `x` is `y`, or lies in `y` at some depth. -/
inductive Operand.Within (x : Operand) : Operand → Prop where
  | self : Within x x
  | item {y : Operand} {items : List Operand} (hy : y ∈ items) (h : Within x y) :
      Within x (.array items)
  | value {key : String} {y : Operand} {entries : List (String × Operand)}
      (hy : (key, y) ∈ entries) (h : Within x y) : Within x (.dictionary entries)

/-- No operand of the tree is an infinite real. -/
def ContentStream.IsFinite (s : ContentStream) : Prop :=
  ∀ call ∈ s.invocations, ∀ y ∈ call.operands, ∀ x,
    (Operand.real x).Within y → ¬ x.IsInfinite

namespace Operand

mutual

/-- What a token of an operand is by itself lies within the operand. A name may also be a
    key. -/
theorem within_of_mem_lexemes {l : Lexeme} {y : Operand} (hl : l.scalar? = some y)
    (hname : ∀ n, l ≠ .name n) (x : Operand) (h : l ∈ x.lexemes) : y.Within x := by
  match x with
  | .array items =>
    rcases List.mem_cons.mp h with rfl | h
    · cases hl
    rcases List.mem_append.mp h with h | h
    · obtain ⟨z, hz, hwithin⟩ := exists_within_items hl hname items h
      exact Within.item hz hwithin
    · obtain rfl := List.mem_singleton.mp h
      cases hl
  | .dictionary entries =>
    rcases List.mem_cons.mp h with rfl | h
    · cases hl
    rcases List.mem_append.mp h with h | h
    · obtain ⟨key, z, hz, hwithin⟩ := exists_within_entries hl hname entries h
      exact Within.value hz hwithin
    · obtain rfl := List.mem_singleton.mp h
      cases hl
  | .string .literal _ | .string .hex _ =>
    obtain rfl := List.mem_singleton.mp h
    obtain rfl := Option.some.inj hl
    exact Within.self
  | .integer _ | .real _ | .boolean _ | .null | .name _ | .inlineData _ =>
    obtain rfl := List.mem_singleton.mp h
    obtain rfl := Option.some.inj hl
    exact Within.self

theorem exists_within_items {l : Lexeme} {y : Operand} (hl : l.scalar? = some y)
    (hname : ∀ n, l ≠ .name n) (xs : List Operand) (h : l ∈ lexemesOfItems xs) :
    ∃ z ∈ xs, y.Within z := by
  match xs with
  | [] => exact absurd h List.not_mem_nil
  | x :: rest =>
    rcases List.mem_append.mp h with h | h
    · exact ⟨x, List.mem_cons_self, within_of_mem_lexemes hl hname x h⟩
    · obtain ⟨z, hz, hwithin⟩ := exists_within_items hl hname rest h
      exact ⟨z, List.mem_cons_of_mem x hz, hwithin⟩

theorem exists_within_entries {l : Lexeme} {y : Operand} (hl : l.scalar? = some y)
    (hname : ∀ n, l ≠ .name n) (es : List (String × Operand))
    (h : l ∈ lexemesOfEntries es) : ∃ key z, (key, z) ∈ es ∧ y.Within z := by
  match es with
  | [] => exact absurd h List.not_mem_nil
  | (key, x) :: rest =>
    rcases List.mem_cons.mp h with h | h
    · exact absurd h (hname key)
    rcases List.mem_append.mp h with h | h
    · exact ⟨key, x, List.mem_cons_self, within_of_mem_lexemes hl hname x h⟩
    · obtain ⟨key', z, hz, hwithin⟩ := exists_within_entries hl hname rest h
      exact ⟨key', z, List.mem_cons_of_mem _ hz, hwithin⟩

end

theorem mem_lexemesOfEntries {l : Lexeme} {key : String} {y : Operand}
    {es : List (String × Operand)} (hy : (key, y) ∈ es) (hl : l ∈ y.lexemes) :
    l ∈ lexemesOfEntries es := by
  induction es with
  | nil => exact absurd hy List.not_mem_nil
  | cons e es ih =>
    obtain ⟨key', x⟩ := e
    rcases List.mem_cons.mp hy with hfirst | hothers
    · obtain ⟨-, rfl⟩ := Prod.mk.inj hfirst
      exact List.mem_cons_of_mem _ (List.mem_append_left _ hl)
    · exact List.mem_cons_of_mem _ (List.mem_append_right _ (ih hothers))

/-- What lies within an operand has its lexemes there. -/
theorem Within.mem_lexemes {x y : Operand} (h : x.Within y) :
    ∀ l ∈ x.lexemes, l ∈ y.lexemes := by
  induction h with
  | self => exact fun l hl => hl
  | item hy _ ih =>
    intro l hl
    apply List.mem_cons_of_mem
    apply List.mem_append_left
    rw [lexemesOfItems_eq]
    exact List.mem_flatMap.mpr ⟨_, hy, ih l hl⟩
  | value hy _ ih =>
    intro l hl
    apply List.mem_cons_of_mem
    apply List.mem_append_left
    exact mem_lexemesOfEntries hy (ih l hl)

/-- The reals within an operand are the reals among its lexemes. -/
theorem within_iff_mem_lexemes {r : Binary64} {x : Operand} :
    (Operand.real r).Within x ↔ Lexeme.real r ∈ x.lexemes := by
  constructor
  · intro h
    exact h.mem_lexemes _ List.mem_cons_self
  · exact within_of_mem_lexemes rfl (fun n => by simp) x

end Operand

/-- Whether a tree is finite can be seen from its lexemes. -/
theorem ContentStream.isFinite_iff {s : ContentStream} :
    s.IsFinite ↔ ∀ call ∈ s.invocations, ∀ y ∈ call.operands, ∀ negative : Bool,
      Lexeme.real (.ofRank negative Magnitude.infinity) ∉ y.lexemes := by
  constructor
  · intro h call hcall y hy negative hmem
    exact h call hcall y hy _ (Operand.within_iff_mem_lexemes.mpr hmem) ⟨negative, rfl⟩
  · intro h call hcall y hy x hx hinfinite
    obtain ⟨negative, rfl⟩ := hinfinite
    exact h call hcall y hy negative (Operand.within_iff_mem_lexemes.mp hx)

instance (s : ContentStream) : Decidable s.IsFinite :=
  decidable_of_iff _ ContentStream.isFinite_iff.symm

namespace Lexer

/-- At the end of the bytes there is nothing but the end of the stream. -/
theorem tokens_nil (position : Nat) :
    (Scan.ofLexer ⟨[], position, false⟩).tokens = .ok [⟨.eof, ⟨position, position⟩⟩] := by
  have hnext : next ⟨[], position, false⟩ =
      (.ok ⟨.eof, ⟨position, position⟩⟩, ⟨[], position, false⟩) := rfl
  rw [ofLexer_finish hnext rfl]
  rfl

/-- What yields lexemes as a whole is a stream of tokens. -/
theorem Yields.tokenize {c : List UInt8} {ls : List Lexeme} (h : Yields c ls []) :
    ∃ ts eof, tokenize c = .ok (ts ++ [eof]) ∧ ts.map (·.lexeme) = ls := by
  obtain ⟨ts, hreach, hts⟩ := h 0
  rw [List.append_nil] at hreach
  exact ⟨ts, _, tokens_of_reaches hreach (tokens_nil _), hts⟩

end Lexer

namespace ContentStream

open Grammar

variable {o : Options} {bytes : List UInt8} {s : ContentStream}

/-- The tokens of a finite tree have no infinite real. -/
theorem IsFinite.not_isInfinite (h : s.IsFinite) {ts : List Token}
    (hts : ts.map (·.lexeme) = s.root.leaves.flatMap Invocation.lexemes) :
    ∀ t ∈ ts, ∀ x, t.lexeme = .real x → ¬ x.IsInfinite := by
  intro t ht x hx
  have hmem : Lexeme.real x ∈ s.root.leaves.flatMap Invocation.lexemes := by
    rw [← hts, ← hx]
    exact List.mem_map_of_mem ht
  obtain ⟨call, hcall, hlexemes⟩ := List.mem_flatMap.mp hmem
  rw [← Node.invocations_eq_leaves] at hcall
  rcases List.mem_append.mp hlexemes with hoperands | hkeyword
  · obtain ⟨y, hy, hreal⟩ := List.mem_flatMap.mp hoperands
    exact h call hcall y hy x (Operand.within_iff_mem_lexemes.mpr hreal)
  · exact absurd (List.mem_singleton.mp hkeyword) (by simp)

/-- A stream that has been read is written as tokens that say the same. -/
theorem exists_tokens_of_write {ts : List Token} {eof : Token}
    (htokens : tokenize bytes = .ok (ts ++ [eof])) (heof : eof.lexeme = .eof)
    (hcontent : IsContent o ts s.root) (hfinite : s.IsFinite) :
    ∃ us eof', tokenize s.write = .ok (us ++ [eof']) ∧ SayTheSame us ts := by
  have hlexemes := lexemes_of_isContent hcontent
  -- what was read is well placed, hence legible, hence read again once it is written
  have hplaced := Lexer.wellPlaced_of_tokens heof htokens rfl (hfinite.not_isInfinite hlexemes)
  rw [hlexemes] at hplaced
  have hlegible := Invocation.areLegible_of_wellPlaced hplaced
  have hyields := Invocation.yields_writeInvocations hlegible
  rw [← Node.invocations_eq_leaves] at hyields
  obtain ⟨us, eof', hus, hsame⟩ := hyields.tokenize
  refine ⟨us, eof', hus, ?_⟩
  unfold SayTheSame
  rw [hsame, hlexemes, Node.invocations_eq_leaves]

/-- **Round trip**: a stream that has been read and has no infinite real is written so
    that it is read as the same tree, places aside, and that tree is written in the
    same way. -/
theorem parse_write (h : parse o bytes = .ok s) (hfinite : s.IsFinite) :
    ∃ s', parse o s.write = .ok s' ∧ s'.root.unplaced = s.root.unplaced ∧
      s'.write = s.write := by
  obtain ⟨ts, eof, htokens, heof⟩ := exists_tokens_of_parse h
  have hcontent := (parse_iff_of_tokenize htokens).mp h
  obtain ⟨us, eof', hus, hsame⟩ := exists_tokens_of_write htokens heof hcontent hfinite
  obtain ⟨n, hn, hunplaced⟩ := exists_isContent hcontent hsame
  -- places are not written
  have hwrite : n.write = s.root.write := by
    rw [← Node.write_unplaced, hunplaced, Node.write_unplaced]
  exact ⟨⟨n⟩, (parse_iff_of_tokenize hus).mpr hn, hunplaced, hwrite⟩

/-- A line with a real, a name with an escape, and a string of each form. -/
theorem parse_write_line : ∃ s s' : ContentStream,
    parse Profile.strict.options (Byte.ofChars "BT/A#42 gs +.50 w[(a\\051)<6 >]TJ ET".toList) = .ok s ∧
    s.IsFinite ∧ parse Profile.strict.options s.write = .ok s' ∧
    s'.root.unplaced = s.root.unplaced ∧ s'.write = s.write := by
  have hfinite : ((parse Profile.strict.options
      (Byte.ofChars "BT/A#42 gs +.50 w[(a\\051)<6 >]TJ ET".toList)).toOption.any
        fun s => decide s.IsFinite) = true := by
    decide +kernel
  match h : parse Profile.strict.options
      (Byte.ofChars "BT/A#42 gs +.50 w[(a\\051)<6 >]TJ ET".toList) with
  | .ok s =>
    rw [h] at hfinite
    have hs : s.IsFinite := of_decide_eq_true hfinite
    obtain ⟨s', hs', hsame, hwrite⟩ := parse_write h hs
    exact ⟨s, s', rfl, hs, hs', hsame, hwrite⟩
  | .error e =>
    rw [h] at hfinite
    exact absurd hfinite Bool.false_ne_true

end ContentStream

end PageContent
