import PageContent.Proofs.Arguments
import PageContent.Proofs.Calls
import PageContent.Proofs.Layout

/-! # Commands, to the lexer

    What a builder is asked to write is what the lexer reads.

    * **Instructions** are read as their operands and their keyword, with an operand for
      each argument that says what the argument does.
    * **Saying**: in front of anything else some bytes are read as some lexemes. They end
      with a gap, so that nothing that comes next is joined to them.
    * **Streams** of any commands are read as their instructions, in order. Comments say
      nothing.
-/

namespace PageContent

/-! ## Lines -/

/-- The keyword of an operator. -/
def Lexeme.keyword? : Lexeme → Option String
  | .operator keyword => some keyword
  | _ => none

/-- There is no operator among operands. -/
theorem Operand.keywords_lexemes (xs : List Operand) :
    (xs.flatMap Operand.lexemes).filterMap Lexeme.keyword? = [] := by
  rw [List.filterMap_eq_nil_iff]
  intro l hl
  cases l with
  | operator keyword => exact absurd hl (Invocation.noOperators_operands xs keyword)
  | _ => rfl

namespace Instruction

/-- The line says what the instruction does: an operand for each argument, and then the
    keyword. -/
def ReadsAs (i : Instruction) (line : List Lexeme) : Prop :=
  ∃ xs, List.Forall₂ Argument.ReadsAs i.arguments xs ∧
    line = xs.flatMap Operand.lexemes ++ [.operator i.keyword]

/-- The only operator of a line is the last of its lexemes. -/
theorem ReadsAs.keywords {i : Instruction} {line : List Lexeme} (h : i.ReadsAs line) :
    line.filterMap Lexeme.keyword? = [i.keyword] := by
  obtain ⟨xs, -, rfl⟩ := h
  rw [List.filterMap_append, Operand.keywords_lexemes]
  rfl

/-- The operators of some lines are the keywords of the instructions. -/
theorem keywords_of_lines {is : List Instruction} {lines : List (List Lexeme)}
    (h : List.Forall₂ ReadsAs is lines) {ts : List Token}
    (hts : ts.map (·.lexeme) = lines.flatten) :
    ts.filterMap (·.lexeme.keyword?) = is.map (·.keyword) := by
  have hlines : lines.flatten.filterMap Lexeme.keyword? = is.map (·.keyword) := by
    clear hts
    induction h with
    | nil => rfl
    | cons hline _ ih =>
      rw [List.flatten_cons, List.filterMap_append, hline.keywords, ih, List.map_cons,
        List.singleton_append]
  rw [← hlines, ← hts, List.filterMap_map]
  rfl

end Instruction

/-! ## Saying -/

namespace Lexer

/-- In front of anything the bytes `c` are read as the lexemes `ls`, and what comes after
    them is read as it is without them. -/
def Says (c : List UInt8) (ls : List Lexeme) : Prop :=
  ∀ (r : List UInt8) (position : Nat) (us : List Token),
    (Scan.ofLexer ⟨r, position + c.length, false⟩).tokens = .ok us →
      ∃ ts, (Scan.ofLexer ⟨c ++ r, position, false⟩).tokens = .ok (ts ++ us) ∧
        ts.map (·.lexeme) = ls

variable {c d g : List UInt8} {ls ms : List Lexeme}

theorem says_nil : Says [] [] :=
  fun _ _ _ hus => ⟨[], hus, rfl⟩

theorem Says.append (hc : Says c ls) (hd : Says d ms) : Says (c ++ d) (ls ++ ms) := by
  intro r position us hus
  rw [List.length_append, ← Nat.add_assoc] at hus
  obtain ⟨vs, hvs, rfl⟩ := hd r (position + c.length) us hus
  obtain ⟨ts, hts, rfl⟩ := hc (d ++ r) position (vs ++ us) hvs
  refine ⟨ts ++ vs, ?_, List.map_append⟩
  rw [List.append_assoc, List.append_assoc]
  exact hts

/-- Where the first step is the same, the tokens are. -/
theorem tokens_of_next {l l' : Lexer} {us : List Token} (h : l.next = l'.next)
    (hus : (Scan.ofLexer l').tokens = .ok us) : (Scan.ofLexer l).tokens = .ok us := by
  cases hnext : l'.next with
  | mk result l₁ =>
    have hnext' : l.next = (result, l₁) := h.trans hnext
    cases result with
    | ok t =>
      by_cases heof : t.lexeme = .eof
      · rwa [ofLexer_finish hnext' heof, ← ofLexer_finish hnext heof]
      · rwa [ofLexer_token hnext' heof, ← ofLexer_token hnext heof]
    | error e =>
      rcases ofLexer_error hnext with hfault | hstuck
      · exact absurd hus (by simp [hfault, Scan.tokens])
      · exact absurd hus (by simp [hstuck, Scan.tokens])

/-- A gap says nothing. -/
theorem says_separator (hg : IsSeparator g) : Says g [] := by
  intro r position us hus
  exact ⟨[], tokens_of_next (next_skip (hg.blanks_append r) position) hus, rfl⟩

/-- A gap is enough for words to end. -/
theorem says_of_yields (hc : ∀ r, WordEnds r → Yields c ls r) (hg : IsSeparator g)
    (hne : g ≠ []) : Says (c ++ g) ls := by
  intro r position us hus
  rw [List.length_append, ← Nat.add_assoc] at hus
  obtain ⟨vs, hvs, hnil⟩ := says_separator hg r (position + c.length) us hus
  obtain rfl := List.map_eq_nil_iff.mp hnil
  obtain ⟨ts, hreach, hts⟩ := hc (g ++ r) (hg.wordEnds hne r) position
  rw [List.append_assoc]
  exact ⟨ts, tokens_of_reaches hreach hvs, hts⟩

/-- What says something is a stream that says this. -/
theorem Says.tokenize (h : Says c ls) :
    ∃ ts eof, tokenize c = .ok (ts ++ [eof]) ∧ eof.lexeme = .eof ∧ ts.map (·.lexeme) = ls := by
  obtain ⟨ts, hts, hlexemes⟩ := h [] 0 _ (tokens_nil _)
  rw [List.append_nil] at hts
  exact ⟨ts, _, hts, rfl, hlexemes⟩

end Lexer

/-! ## Instructions -/

/-- The requirement that an argument meets. -/
def Argument.type? : Argument → Option OperandType
  | number _ => some .number
  | numbers _ => some .numberArray
  | name _ => some .name
  | literal _ => some .string
  | raw _ => none

namespace Instruction

open Lexer

/-- The bytes are read as the instructions, line by line. -/
def AreRead (is : List Instruction) (c : List UInt8) : Prop :=
  ∃ lines, List.Forall₂ ReadsAs is lines ∧ Says c lines.flatten

theorem areRead_nil : AreRead [] [] :=
  ⟨[], .nil, says_nil⟩

theorem AreRead.append {is js : List Instruction} {c d : List UInt8} (hc : AreRead is c)
    (hd : AreRead js d) : AreRead (is ++ js) (c ++ d) := by
  obtain ⟨lines, hlines, hsays⟩ := hc
  obtain ⟨lines', hlines', hsays'⟩ := hd
  refine ⟨lines ++ lines', List.rel_append hlines hlines', ?_⟩
  rw [List.flatten_append]
  exact hsays.append hsays'

/-- What is read part by part is read as a whole. -/
theorem areRead_flatMap {α : Type} {f : α → List Instruction} {g : α → List UInt8} {xs : List α}
    (h : ∀ x ∈ xs, AreRead (f x) (g x)) : AreRead (xs.flatMap f) (xs.flatMap g) := by
  induction xs with
  | nil => exact areRead_nil
  | cons x xs ih =>
    have hrest := ih fun y hy => h y (List.mem_cons_of_mem x hy)
    rw [List.flatMap_cons, List.flatMap_cons]
    exact (h x List.mem_cons_self).append hrest

/-- Arguments with a space after each are read in front of other tokens. -/
theorem exists_yields_arguments {as : List Argument} (has : ∀ a ∈ as, a.isReadable = true)
    {c : List UInt8} {ls : List Lexeme} (hc : ∀ r, WordEnds r → Yields c ls r) (hne : ls ≠ []) :
    ∃ xs, List.Forall₂ Argument.ReadsAs as xs ∧ ∀ r, WordEnds r →
      Yields (as.flatMap (fun a => Utf8.encode (a.text ++ " ")) ++ c)
        (xs.flatMap Operand.lexemes ++ ls) r := by
  induction as with
  | nil => exact ⟨[], .nil, hc⟩
  | cons a as ih =>
    obtain ⟨xs, hxs, hrest⟩ := ih fun b hb => has b (List.mem_cons_of_mem a hb)
    obtain ⟨x, hx, hyields⟩ := Argument.exists_yields (has a List.mem_cons_self)
    refine ⟨x :: xs, .cons hx hxs, ?_⟩
    intro r hr
    have hspace : Utf8.encode " " = [0x20] := by decide +kernel
    -- the space after an argument is counted with what comes next
    rw [List.flatMap_cons, List.flatMap_cons, List.append_assoc, List.append_assoc,
      Utf8.encode_append, hspace, List.append_assoc]
    exact Yields.spaced hyields (hrest r hr) (List.append_ne_nil_of_right_ne_nil _ hne)

/-- The instruction asks for an operator of the catalog, and has arguments of the types
    that the operator takes. -/
def IsCatalogued (i : Instruction) : Prop :=
  ∃ op ∈ Operator.catalog, op.keyword = i.keyword ∧
    op.arity = .fixed (i.arguments.filterMap Argument.type?)

/-- **Instructions** of the catalog are read if their arguments are. -/
theorem areRead_text {i : Instruction} (hi : i.IsCatalogued)
    (has : ∀ a ∈ i.arguments, a.isReadable = true) : AreRead [i] (Utf8.encode i.text) := by
  obtain ⟨op, hop, hkeyword, harity⟩ := hi
  have hshapes : op.arity.HasShapes := harity ▸ Arity.HasShapes.fixed _
  have hid := Operator.keyword_ne_of_hasShapes hop hshapes
  have hspells := Operator.spells_catalog hop
  rw [hkeyword] at hid hspells
  have hword : ∀ r, WordEnds r → Yields (Utf8.encode i.keyword) [.operator i.keyword] r :=
    fun r hr => yields_spelled hspells hr (by simp) (by simpa using hid)
  obtain ⟨xs, hxs, hyields⟩ := exists_yields_arguments has hword (List.cons_ne_nil _ _)
  refine ⟨[_], .cons ⟨xs, hxs, rfl⟩ .nil, ?_⟩
  -- the line ends with a line feed, which is a gap
  have hfeed : Utf8.encode "\n" = [0x0A] := by decide +kernel
  have hgap : IsSeparator [0x0A] := IsSeparator.blank (by decide) IsSeparator.nil
  rw [text, Utf8.encode_append, Utf8.encode_append, Utf8.encode_join, List.flatMap_map, hfeed,
    List.flatten_cons, List.flatten_nil, List.append_nil]
  exact says_of_yields hyields hgap (List.cons_ne_nil _ _)

end Instruction

/-! ## Commands -/

namespace Command

open Lexer Instruction

/-- A command that is read as its instructions: its arguments are readable, and a comment
    is a single line. What is written already can be anything. -/
def isReadable : Command → Bool
  | comment text => text.toList.all fun c => decide (c ≠ '\n' ∧ c ≠ '\r')
  | raw _ => false
  | op _ _ => false
  | c => c.instructions.all fun i => i.arguments.all (·.isReadable)

theorem isReadable_arguments {c : Command} (h : c.isReadable = true) :
    ∀ i ∈ c.instructions, ∀ a ∈ i.arguments, a.isReadable = true := by
  have hall : c.instructions.all (fun i => i.arguments.all (·.isReadable)) = true := by
    cases c with
    | comment text => rfl
    | raw text => exact absurd h Bool.false_ne_true
    | op operands keyword => exact absurd h Bool.false_ne_true
    | _ => exact h
  intro i hi a ha
  exact List.all_eq_true.mp (List.all_eq_true.mp hall i hi) a ha

/-- Commands ask for operators of the catalog, unless the operator is given by name. -/
theorem isCatalogued {c : Command} (h : c.isReadable = true) :
    ∀ i ∈ c.instructions, i.IsCatalogued := by
  unfold IsCatalogued
  cases c with
  | op operands keyword => exact absurd h Bool.false_ne_true
  | _ =>
    -- what the arguments are does not matter for their types
    simp only [instructions, List.forall_mem_cons, List.map_cons, List.map_nil,
      List.filterMap_cons, List.filterMap_nil, Argument.type?]
    decide +kernel

/-- A comment is a gap. -/
theorem isSeparator_comment {text : String} (h : (comment text).isReadable = true) :
    IsSeparator (Utf8.encode (comment text).text) := by
  have hline : ∀ b ∈ 0x20 :: Utf8.encode text, Byte.isLineEnd b = false := by
    intro b hb
    rcases List.mem_cons.mp hb with rfl | hb
    · decide
    · obtain ⟨c, hc, hbc⟩ := List.mem_flatMap.mp hb
      obtain ⟨hfeed, hreturn⟩ := of_decide_eq_true (List.all_eq_true.mp h c hc)
      have hfeed' : b ≠ 0x0A := Utf8.ne_ofChar_of_mem_encodeChar hbc (by decide) hfeed
      have hreturn' : b ≠ 0x0D := Utf8.ne_ofChar_of_mem_encodeChar hbc (by decide) hreturn
      simp [Byte.isLineEnd, hfeed', hreturn']
  have hsign : Utf8.encode "% " = [Byte.ofChar '%', 0x20] := by decide +kernel
  have hfeed : Utf8.encode "\n" = [0x0A] := by decide +kernel
  rw [Command.text, Utf8.encode_append, Utf8.encode_append, hsign, hfeed, List.append_assoc]
  exact IsSeparator.comment hline (by decide) IsSeparator.nil

/-- **Commands** are read as their instructions. -/
theorem areRead_text {c : Command} (h : c.isReadable = true) :
    AreRead c.instructions (Utf8.encode c.text) := by
  have hinstructions : AreRead c.instructions
      (c.instructions.flatMap fun i => Utf8.encode i.text) := by
    have hall := areRead_flatMap (f := fun i => [i]) fun i hi =>
      Instruction.areRead_text (isCatalogued h i hi) (isReadable_arguments h i hi)
    rwa [List.flatMap_singleton'] at hall
  have hjoin : Utf8.encode (String.join (c.instructions.map (·.text))) =
      c.instructions.flatMap fun i => Utf8.encode i.text := by
    rw [Utf8.encode_join, List.flatMap_map]
  rw [← hjoin] at hinstructions
  cases c with
  | comment text => exact ⟨[], .nil, says_separator (isSeparator_comment h)⟩
  | raw text => exact absurd h Bool.false_ne_true
  | _ => exact hinstructions

end Command

/-! ## Streams -/

namespace Builder

open Instruction

/-- The bytes of a stream are those of its commands. -/
theorem bytes_addAll_empty (cs : List Command) :
    (empty.addAll cs).bytes = cs.flatMap fun c => Utf8.encode c.text := by
  rw [bytes, text_addAll, Utf8.encode_append, Utf8.encode_join, List.flatMap_map]
  rfl

theorem operatorCount_addAll_empty (cs : List Command) :
    (empty.addAll cs).operatorCount = (cs.flatMap (·.instructions)).length := by
  rw [operatorCount_addAll]
  exact Nat.zero_add _

/-- **Streams** of commands are read as the instructions of the commands. -/
theorem areRead_bytes {cs : List Command} (h : ∀ c ∈ cs, c.isReadable = true) :
    AreRead (cs.flatMap (·.instructions)) (empty.addAll cs).bytes := by
  rw [bytes_addAll_empty]
  exact areRead_flatMap fun c hc => Command.areRead_text (h c hc)

/-- **What is written is read**: the tokens of a stream of commands are those of its
    instructions, in order. For each instruction there are operands that say what its
    arguments do, and its keyword. There are as many operators as the builder has
    counted. -/
theorem tokenize_addAll {cs : List Command} (h : ∀ c ∈ cs, c.isReadable = true) :
    ∃ ts eof lines, tokenize (empty.addAll cs).bytes = .ok (ts ++ [eof]) ∧ eof.lexeme = .eof ∧
      List.Forall₂ Instruction.ReadsAs (cs.flatMap (·.instructions)) lines ∧
      ts.map (·.lexeme) = lines.flatten ∧
      ts.filterMap (·.lexeme.keyword?) = (cs.flatMap (·.instructions)).map (·.keyword) ∧
      (ts.filterMap (·.lexeme.keyword?)).length = (empty.addAll cs).operatorCount := by
  obtain ⟨lines, hlines, hsays⟩ := areRead_bytes h
  obtain ⟨ts, eof, htokens, heof, hlexemes⟩ := hsays.tokenize
  have hkeywords := keywords_of_lines hlines hlexemes
  refine ⟨ts, eof, lines, htokens, heof, hlines, hlexemes, hkeywords, ?_⟩
  rw [hkeywords, List.length_map, operatorCount_addAll_empty]

/-- A comment, a dash pattern with a negative zero, and a line of text that closes a
    parenthesis. -/
theorem tokenize_addAll_textLine :
    let cs := [Command.comment "dashes (", .dash [.ofRank true 0, whole 3] (tenths 5),
      .textLine "F1" (whole (10 ^ 15)) (whole 0) (whole (-12)) "a)\r\n\\"]
    (∀ c ∈ cs, c.isReadable = true) ∧ ∃ ts eof, tokenize (empty.addAll cs).bytes =
      .ok (ts ++ [eof]) ∧ ts.filterMap (·.lexeme.keyword?) = ["d", "BT", "Tf", "Td", "Tj", "ET"] := by
  intro cs
  have hcs : ∀ c ∈ cs, c.isReadable = true := by decide +kernel
  obtain ⟨ts, eof, lines, htokens, -, -, -, hkeywords, -⟩ := tokenize_addAll hcs
  exact ⟨hcs, ts, eof, htokens, hkeywords⟩

end Builder

end PageContent
