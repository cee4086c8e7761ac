import PageContent.Proofs.Commands
import PageContent.Proofs.Filtering
import PageContent.Proofs.NearestValues

/-! # Sample pages

    Pages that are written by a builder are parsed as what they were meant to be.

    * **Calls**: the tokens of instructions are calls of their operators, one after the
      other, whatever the arguments are. So only the keywords matter for the tree.
    * **Counting**: a tree has one operator for each instruction.
    * **Pages**: a stroked path in a state block of its own, any number of times, and any
      number of lines in a text object. The two pages can be joined in either order.
-/

namespace PageContent

open Grammar

/-! ## Arguments that fit -/

namespace Argument

/-- What has the value of a number is a number, and no container. -/
theorem isNumber_of_number? {x : Operand} {v : Binary64} (h : x.number? = some v) :
    x.isNumber = true ∧ x.depth = 0 := by
  cases x with
  | integer i => exact ⟨rfl, rfl⟩
  | real r => exact ⟨rfl, rfl⟩
  | _ => exact absurd h (by simp [Operand.number?])

theorem areNumbers_of_number? {vs : List Binary64} {xs : List Operand}
    (h : List.Forall₂ (fun v x => x.number? = some (Binary64.withoutZeroSign v)) vs xs) :
    ∀ x ∈ xs, x.isNumber = true ∧ x.depth = 0 := by
  induction h with
  | nil => exact fun x hx => absurd hx List.not_mem_nil
  | cons hx _ ih => exact List.forall_mem_cons.mpr ⟨isNumber_of_number? hx, ih⟩

variable {a : Argument} {x : Operand}

/-- What an argument is read as meets the requirement of the argument. -/
theorem ReadsAs.accepts (h : a.ReadsAs x) :
    ∃ type, a.type? = some type ∧ type.accepts x = true := by
  cases h with
  | number hx => exact ⟨.number, rfl, (isNumber_of_number? hx).1⟩
  | numbers hxs =>
    exact ⟨.numberArray, rfl, List.all_eq_true.mpr fun x hx => (areNumbers_of_number? hxs x hx).1⟩
  | name n => exact ⟨.name, rfl, rfl⟩
  | literal text => exact ⟨.string, rfl, rfl⟩

/-- Only numbers are put into a container. -/
theorem ReadsAs.depth_le (h : a.ReadsAs x) : x.depth ≤ 1 := by
  cases h with
  | number hx =>
    rw [(isNumber_of_number? hx).2]
    exact Nat.zero_le 1
  | numbers hxs =>
    apply Nat.succ_le_succ
    exact depthOfItems_le_iff.mpr fun x hx => Nat.le_of_eq (areNumbers_of_number? hxs x hx).2
  | name n => exact Nat.zero_le 1
  | literal text => exact Nat.zero_le 1

variable {as : List Argument} {xs : List Operand}

theorem depthOfItems_le (h : List.Forall₂ ReadsAs as xs) : Operand.depthOfItems xs ≤ 1 := by
  induction h with
  | nil => exact Nat.zero_le 1
  | cons hx _ ih => exact Nat.max_le.mpr ⟨hx.depth_le, ih⟩

/-- What arguments are read as is of their types, one by one. -/
theorem areOf_types (h : List.Forall₂ ReadsAs as xs) :
    (as.filterMap type?).length = xs.length ∧ Operand.AreOf xs (as.filterMap type?) := by
  induction h with
  | nil => exact ⟨rfl, fun i x type hx => absurd hx (by simp)⟩
  | cons hx _ ih =>
    obtain ⟨type, htype, haccepts⟩ := hx.accepts
    rw [List.filterMap_cons_some htype]
    refine ⟨congrArg Nat.succ ih.1, ?_⟩
    intro i y type' hy htype'
    cases i with
    | zero =>
      obtain rfl := Option.some.inj hy
      obtain rfl := Option.some.inj htype'
      exact haccepts
    | succ i => exact ih.2 i y type' hy htype'

end Argument

/-! ## Calls -/

namespace Instruction

variable {i : Instruction} {is js : List Instruction} {ts rest : List Token} {d : Nat}

/-- The tokens of an instruction are a call of its operator. -/
theorem exists_isCall (hi : i.IsCatalogued) (hd : 1 ≤ d) {line : List Lexeme}
    (hline : i.ReadsAs line) (hts : ts.map (·.lexeme) = line) :
    ∃ op, Operator.lookup? i.keyword = some op ∧
      ∀ rest, ∃ call, IsCall d op (ts ++ rest) rest call := by
  obtain ⟨op, hop, hkeyword, harity⟩ := hi
  obtain ⟨xs, hxs, rfl⟩ := hline
  obtain ⟨us, vs, rfl, hus, hvs⟩ := List.map_eq_append_iff.mp hts
  obtain ⟨t, rfl, ht⟩ := List.map_eq_singleton_iff.mp hvs
  rw [← Operand.lexemesOfItems_eq] at hus
  obtain ⟨ys, hys, rfl⟩ := exists_areOperands_of_lexemes xs
    (Nat.le_trans (Argument.depthOfItems_le hxs) hd) hus
  have hlookup : Operator.lookup? i.keyword = some op :=
    hkeyword ▸ Operator.lookup?_catalog hop
  -- the operands pass the check of their operator
  obtain ⟨hlength, hof⟩ := Argument.areOf_types hxs
  have hshapes : op.arity.HasShapes := harity ▸ Arity.HasShapes.fixed _
  have hshape : op.arity.Shape (i.arguments.filterMap Argument.type?) :=
    harity ▸ Arity.Shape.fixed _
  have hcheck := @Operator.check_eq_ok op (ys.map (·.1)) [] t.span _ hshapes hshape hlength hof
  have hfits := Operator.check_eq_ok_iff.mp hcheck
  refine ⟨op, hlookup, ?_⟩
  intro rest
  rw [List.append_assoc]
  exact ⟨_, IsCall.mk hys ht hlookup hfits⟩

/-- The tokens begin with calls of the operators of the instructions, in order. -/
inductive AreCalled (d : Nat) : List Instruction → List Token → List Token → Prop where
  | nil {ts : List Token} : AreCalled d [] ts ts
  | cons {i : Instruction} {is : List Instruction} {ts us rest : List Token} {op : Operator}
      {call : Invocation} (hop : Operator.lookup? i.keyword = some op)
      (hcall : IsCall d op ts us call) (his : AreCalled d is us rest) :
      AreCalled d (i :: is) ts rest

/-- The tokens of some lines are calls. -/
theorem areCalled (his : ∀ i ∈ is, i.IsCatalogued) (hd : 1 ≤ d) {lines : List (List Lexeme)}
    (hlines : List.Forall₂ ReadsAs is lines) (hts : ts.map (·.lexeme) = lines.flatten) :
    AreCalled d is ts [] := by
  induction hlines generalizing ts with
  | nil =>
    obtain rfl := List.map_eq_nil_iff.mp hts
    exact AreCalled.nil
  | cons hline _ ih =>
    obtain ⟨us, vs, rfl, hus, hvs⟩ := List.map_eq_append_iff.mp hts
    obtain ⟨hi, hothers⟩ := List.forall_mem_cons.mp his
    obtain ⟨op, hop, hcalls⟩ := exists_isCall hi hd hline hus
    obtain ⟨call, hcall⟩ := hcalls vs
    exact AreCalled.cons hop hcall (ih hothers hvs)

namespace AreCalled

/-- The first of some instructions. -/
theorem isCallOf {p : Production} (h : AreCalled d (i :: is) ts rest)
    (hp : (Operator.lookup? i.keyword).map (·.production) = some p) :
    ∃ us call, IsCallOf d p ts us call ∧ AreCalled d is us rest := by
  cases h with
  | cons hop hcall his =>
    rw [hop] at hp
    exact ⟨_, _, IsCallOf.mk hcall (Option.some.inj hp), his⟩

/-- Drawing operators in front of others. -/
theorem areDrawn (h : AreCalled d (js ++ is) ts rest) (hjs : ∀ j ∈ js,
      (Operator.lookup? j.keyword).map (·.category) = some .pathConstruction) :
    ∃ us calls, AreDrawn d ts us calls ∧ calls.length = js.length ∧ AreCalled d is us rest := by
  induction js generalizing ts with
  | nil => exact ⟨ts, [], AreDrawn.nil, rfl, h⟩
  | cons j js ih =>
    obtain ⟨hj, hothers⟩ := List.forall_mem_cons.mp hjs
    cases h with
    | cons hop hcall hrest =>
      rw [hop] at hj
      obtain ⟨us, calls, hdrawn, hlength, his⟩ := ih hrest hothers
      exact ⟨us, _ :: calls, AreDrawn.cons hcall (Option.some.inj hj) hdrawn,
        congrArg Nat.succ hlength, his⟩

/-- Items of one operator each in front of other instructions. -/
theorem areSingles {o : Options} {w : Setting} (h : AreCalled o.nestingLimit (js ++ is) ts rest)
    (hjs : ∀ j ∈ js, ∀ glyph,
      (Operator.lookup? j.keyword).map (isSingle w.level glyph) = some true) :
    ∃ us ns, (∀ glyph, AreItems o w glyph ts us ns) ∧ ns.length = js.length ∧
      AreCalled o.nestingLimit is us rest := by
  induction js generalizing ts with
  | nil => exact ⟨ts, [], fun _ => AreItems.nil, rfl, h⟩
  | cons j js ih =>
    obtain ⟨hj, hothers⟩ := List.forall_mem_cons.mp hjs
    cases h with
    | cons hop hcall hrest =>
      simp only [hop, Option.map_some, Option.some.injEq] at hj
      obtain ⟨us, ns, hns, hlength, his⟩ := ih hrest hothers
      exact ⟨us, _ :: ns, fun glyph => AreItems.cons (IsItem.single hcall (hj glyph)) (hns false),
        congrArg Nat.succ hlength, his⟩

end AreCalled

end Instruction

/-! ## Counting -/

namespace ContentStream

variable {o : Options} {bytes : List UInt8} {s : ContentStream}

/-- The operators of a tree are those among its tokens. -/
theorem operatorCount_eq_length_keywords {ts : List Token} {eof : Token}
    (htokens : tokenize bytes = .ok (ts ++ [eof])) (h : parse o bytes = .ok s) :
    s.operatorCount = (ts.filterMap (·.lexeme.keyword?)).length := by
  have hkeywords : ∀ calls : List Invocation,
      (calls.flatMap Invocation.lexemes).filterMap Lexeme.keyword? = calls.map (·.keyword) := by
    intro calls
    induction calls with
    | nil => rfl
    | cons call calls ih =>
      rw [List.flatMap_cons, List.filterMap_append, ih, Invocation.lexemes, List.filterMap_append,
        Operand.keywords_lexemes]
      rfl
  have hlexemes := lexemes_of_isContent ((parse_iff_of_tokenize htokens).mp h)
  have hfilter : ts.filterMap (·.lexeme.keyword?) =
      (ts.map (·.lexeme)).filterMap Lexeme.keyword? := by
    rw [List.filterMap_map]
    rfl
  rw [hfilter, hlexemes, hkeywords, List.length_map, ← Node.invocations_eq_leaves]
  rfl

end ContentStream

namespace Builder

open Instruction

/-- Commands whose instructions are items are parsed as these items, and there are as many
    operators in the tree as the builder has counted. -/
theorem exists_parse_addAll {o : Options} (ho : 1 ≤ o.nestingLimit) {cs : List Command}
    (hcs : ∀ c ∈ cs, c.isReadable = true) {P : List Node → Prop}
    (hitems : ∀ ts, AreCalled o.nestingLimit (cs.flatMap (·.instructions)) ts [] →
      ∃ ns, AreItems o (Setting.outermost o) true ts [] ns ∧ P ns) :
    ∃ s, ContentStream.parse o (empty.addAll cs).bytes = .ok s ∧ P s.children ∧
      s.operatorCount = (empty.addAll cs).operatorCount := by
  obtain ⟨lines, hlines, hsays⟩ := areRead_bytes hcs
  obtain ⟨ts, eof, htokens, -, hlexemes⟩ := hsays.tokenize
  have hcatalogued : ∀ i ∈ cs.flatMap (·.instructions), i.IsCatalogued := by
    intro i hi
    obtain ⟨c, hc, hic⟩ := List.mem_flatMap.mp hi
    exact Command.isCatalogued (hcs c hc) i hic
  obtain ⟨ns, hns, hP⟩ := hitems ts (areCalled hcatalogued ho hlines hlexemes)
  have hparse : ContentStream.parse o (empty.addAll cs).bytes =
      .ok ⟨.ofChildren .content ns⟩ := (ContentStream.parse_iff_of_tokenize htokens).mpr
    ⟨ns, hns, rfl⟩
  refine ⟨_, hparse, hP, ?_⟩
  rw [ContentStream.operatorCount_eq_length_keywords htokens hparse,
    keywords_of_lines hlines hlexemes, List.length_map, operatorCount_addAll_empty]

end Builder

/-! ## Items in a row -/

namespace Grammar

/-- Items and then others. The first of the others may be the first of all. -/
theorem areItems_append {o : Options} {w : Setting} {glyph : Bool} {ts us rest : List Token}
    {ns ms : List Node} (h : AreItems o w glyph ts us ns)
    (h' : ∀ glyph, AreItems o w glyph us rest ms) : AreItems o w glyph ts rest (ns ++ ms) := by
  match h with
  | .nil => exact h' glyph
  | .cons hn hns => exact AreItems.cons hn (areItems_append hns h')

theorem areItems_singleton {o : Options} {w : Setting} {glyph : Bool} {ts rest : List Token}
    {n : Node} (h : IsItem o w glyph ts rest n) : AreItems o w glyph ts rest [n] :=
  AreItems.cons h AreItems.nil

end Grammar

/-! ## Pages -/

/-- A group of the production `p`. -/
def Node.IsGroupOf (p : Production) (n : Node) : Prop :=
  n.isGroup = true ∧ n.production = p

namespace Builder

open Instruction

/-- The instructions of some commands. -/
def instructionsOf (cs : List Command) : List Instruction :=
  cs.flatMap (·.instructions)

/-- The commands of a page of stroked paths. -/
def strokedPaths (n : Nat) : List Command :=
  (List.range n).flatMap pathCommands

/-- The commands of a page of text lines. -/
def textLines (m : Nat) : List Command :=
  [.beginText, .font "F1" (whole 10)] ++ (List.range m).flatMap lineCommands ++ [.endText]

theorem instructionsOf_append (cs ds : List Command) :
    instructionsOf (cs ++ ds) = instructionsOf cs ++ instructionsOf ds :=
  List.flatMap_append

/-- The instructions of lines of text move and show. -/
theorem instructionsOf_lines (is : List Nat) :
    (instructionsOf (is.flatMap lineCommands)).length = 2 * is.length ∧
      ∀ j ∈ instructionsOf (is.flatMap lineCommands), j.keyword = "Td" ∨ j.keyword = "Tj" := by
  induction is with
  | nil => exact ⟨rfl, fun j hj => absurd hj List.not_mem_nil⟩
  | cons i is ih =>
    have hcons : instructionsOf ((i :: is).flatMap lineCommands) =
        ⟨[.number (whole 0), .number (whole (-12))], "Td"⟩ ::
          ⟨[.literal s!"Line {i} of generated (text)"], "Tj"⟩ ::
          instructionsOf (is.flatMap lineCommands) := rfl
    rw [hcons, List.forall_mem_cons, List.forall_mem_cons]
    refine ⟨?_, .inl rfl, .inr rfl, ih.2⟩
    simp only [List.length_cons, ih.1]
    omega

theorem instructionsOf_textLines (m : Nat) :
    instructionsOf (textLines m) = ⟨[], "BT"⟩ :: (⟨[.name "F1", .number (whole 10)], "Tf"⟩ ::
      instructionsOf ((List.range m).flatMap lineCommands)) ++ [⟨[], "ET"⟩] := by
  unfold textLines
  rw [instructionsOf_append, instructionsOf_append]
  rfl

/-! ### Sizes -/

theorem operatorCount_pageWithPaths (n : Nat) : (pageWithPaths n).operatorCount = 8 * n := by
  have hlength : ∀ is : List Nat,
      (instructionsOf (is.flatMap pathCommands)).length = 8 * is.length := by
    intro is
    induction is with
    | nil => rfl
    | cons i is ih =>
      have hpath : (instructionsOf (pathCommands i)).length = 8 := rfl
      rw [List.flatMap_cons, instructionsOf_append, List.length_append, hpath, ih, List.length_cons]
      omega
  have hpaths := hlength (List.range n)
  rw [List.length_range] at hpaths
  exact (operatorCount_addAll_empty (strokedPaths n)).trans hpaths

theorem operatorCount_pageWithText (m : Nat) :
    (pageWithText m).operatorCount = 2 * m + 3 := by
  have hlines := (instructionsOf_lines (List.range m)).1
  rw [List.length_range] at hlines
  have hlength : (instructionsOf (textLines m)).length = 2 * m + 3 := by
    rw [instructionsOf_textLines]
    simp only [List.length_append, List.length_cons, List.length_nil, hlines]
  exact (operatorCount_addAll_empty (textLines m)).trans hlength

/-! ### Contents -/

variable {o : Options} {w : Setting} {is : List Instruction} {ts rest : List Token}

/-- A stroked path is a state block of its own. -/
theorem exists_stateBlock (i : Nat) (hw : w.allows .stateBlock)
    (h : AreCalled o.nestingLimit (instructionsOf (pathCommands i) ++ is) ts rest) :
    ∃ us b, (∀ glyph, IsItem o w glyph ts us b) ∧ b.IsGroupOf .graphicsStateBlock ∧
      AreCalled o.nestingLimit is us rest := by
  have h₁ : AreCalled o.nestingLimit (⟨[], "q"⟩ :: ([⟨_, "w"⟩, ⟨_, "RG"⟩] ++
      ([⟨_, "m"⟩, ⟨_, "l"⟩, ⟨_, "c"⟩] ++ (⟨[], "S"⟩ :: ⟨[], "Q"⟩ :: is)))) ts rest := h
  obtain ⟨us₁, opening, hopening, h₂⟩ := h₁.isCallOf (p := .saveState) (by decide +kernel)
  obtain ⟨us₂, settings, hsettings, -, h₃⟩ := h₂.areSingles (w := w.inside .stateBlock) (by
    simp only [List.forall_mem_cons, Setting.inside]
    decide +kernel)
  obtain ⟨us₃, drawn, hdrawn, hlength, h₄⟩ := h₃.areDrawn (by
    simp only [List.forall_mem_cons]
    decide +kernel)
  obtain ⟨us₄, paint, hpaint, h₅⟩ := h₄.isCallOf (p := .pathPainting) (by decide +kernel)
  obtain ⟨us₅, closing, hclosing, his⟩ := h₅.isCallOf (p := .restoreState) (by decide +kernel)
  -- the path comes after the settings
  have hne : drawn ≠ [] := List.ne_nil_of_length_pos (hlength ▸ Nat.succ_pos 2)
  have hstroke : IsPaint o.nestingLimit us₃ us₄ paint := by
    obtain ⟨hcall, hop⟩ := hpaint
    exact IsPaint.mk hcall (.inl hop)
  have hpath : ∀ glyph, IsItem o (w.inside .stateBlock) glyph us₂ us₄
      (pathNode drawn none paint) :=
    fun glyph => IsItem.path hdrawn hne IsClip.none hstroke rfl
  have hinside := areItems_append (hsettings false) fun glyph => areItems_singleton (hpath glyph)
  exact ⟨us₅, _, fun glyph => IsItem.closed hw hopening hinside hclosing, ⟨rfl, rfl⟩, his⟩

/-- **Stroked paths** are as many state blocks. -/
theorem exists_stateBlocks (is' : List Nat) (hw : w.allows .stateBlock)
    (h : AreCalled o.nestingLimit (instructionsOf (is'.flatMap pathCommands) ++ is) ts rest) :
    ∃ us ns, (∀ glyph, AreItems o w glyph ts us ns) ∧ ns.length = is'.length ∧
      (∀ b ∈ ns, b.IsGroupOf .graphicsStateBlock) ∧ AreCalled o.nestingLimit is us rest := by
  induction is' generalizing ts with
  | nil => exact ⟨ts, [], fun _ => AreItems.nil, rfl, fun b hb => absurd hb List.not_mem_nil, h⟩
  | cons i is' ih =>
    rw [List.flatMap_cons, instructionsOf_append, List.append_assoc] at h
    obtain ⟨us, b, hb, hgroup, hothers⟩ := exists_stateBlock i hw h
    obtain ⟨vs, ns, hns, hlength, hgroups, his⟩ := ih hothers
    exact ⟨vs, b :: ns, fun glyph => AreItems.cons (hb glyph) (hns false),
      congrArg Nat.succ hlength, List.forall_mem_cons.mpr ⟨hgroup, hgroups⟩, his⟩

/-- **Text lines** are a single text object, with two children for each line. -/
theorem exists_textObject (m : Nat) (hw : w.allows .textObject)
    (h : AreCalled o.nestingLimit (instructionsOf (textLines m) ++ is) ts rest) :
    ∃ us b, (∀ glyph, IsItem o w glyph ts us b) ∧ b.IsGroupOf .textObject ∧
      b.children.length = 2 * m + 3 ∧ AreCalled o.nestingLimit is us rest := by
  obtain ⟨hlength, hkeywords⟩ := instructionsOf_lines (List.range m)
  rw [instructionsOf_textLines, List.append_assoc] at h
  obtain ⟨us₁, opening, hopening, h₂⟩ := h.isCallOf (p := .beginText) (by decide +kernel)
  -- the font, the moves and the texts are items by themselves
  obtain ⟨us₂, ns, hns, hcount, h₃⟩ := h₂.areSingles (w := w.inside .textObject) (by
    simp only [List.forall_mem_cons, Setting.inside]
    refine ⟨by decide +kernel, ?_⟩
    intro j hj
    rcases hkeywords j hj with hkeyword | hkeyword
    · rw [hkeyword]
      decide +kernel
    · rw [hkeyword]
      decide +kernel)
  obtain ⟨us₃, closing, hclosing, his⟩ := h₃.isCallOf (p := .endText) (by decide +kernel)
  refine ⟨us₃, _, fun glyph => IsItem.closed hw hopening (hns false) hclosing, ⟨rfl, rfl⟩, ?_, his⟩
  rw [List.length_cons, hlength, List.length_range] at hcount
  show (Node.invocation opening :: ns ++ [Node.invocation closing]).length = _
  rw [List.length_append, List.length_cons, hcount, List.length_singleton]

/-- What `n` stroked paths and `m` lines of text are in a tree. -/
structure AreSampleItems (n m : Nat) (blocks : List Node) (text : Node) : Prop where
  length_blocks : blocks.length = n
  stateBlock : ∀ b ∈ blocks, b.IsGroupOf .graphicsStateBlock
  textObject : text.IsGroupOf .textObject
  /-- Two for each line, the font, and the operators at both ends. -/
  length_children : text.children.length = 2 * m + 3

theorem exists_paths_text {n m : Nat} (hw : ∀ s, w.allows s)
    (h : AreCalled o.nestingLimit (instructionsOf (strokedPaths n ++ textLines m)) ts []) :
    ∃ blocks text, AreSampleItems n m blocks text ∧
      ∀ glyph, AreItems o w glyph ts [] (blocks ++ [text]) := by
  rw [instructionsOf_append] at h
  obtain ⟨us, blocks, hblocks, hlength, hgroups, hrest⟩ := exists_stateBlocks _ (hw _) h
  rw [← List.append_nil (instructionsOf (textLines m))] at hrest
  obtain ⟨vs, text, htext, hgroup, hchildren, hnil⟩ := exists_textObject m (hw _) hrest
  cases hnil with
  | nil =>
    rw [List.length_range] at hlength
    exact ⟨blocks, text, ⟨hlength, hgroups, hgroup, hchildren⟩, fun glyph =>
      areItems_append (hblocks glyph) fun glyph' => areItems_singleton (htext glyph')⟩

theorem exists_text_paths {n m : Nat} (hw : ∀ s, w.allows s)
    (h : AreCalled o.nestingLimit (instructionsOf (textLines m ++ strokedPaths n)) ts []) :
    ∃ blocks text, AreSampleItems n m blocks text ∧
      ∀ glyph, AreItems o w glyph ts [] (text :: blocks) := by
  rw [instructionsOf_append] at h
  obtain ⟨us, text, htext, hgroup, hchildren, hrest⟩ := exists_textObject m (hw _) h
  rw [← List.append_nil (instructionsOf (strokedPaths n))] at hrest
  obtain ⟨vs, blocks, hblocks, hlength, hgroups, hnil⟩ := exists_stateBlocks _ (hw _) hrest
  cases hnil with
  | nil =>
    rw [List.length_range] at hlength
    exact ⟨blocks, text, ⟨hlength, hgroups, hgroup, hchildren⟩, fun glyph =>
      AreItems.cons (htext glyph) (hblocks false)⟩

/-! ### Arguments -/

/-- Whole numbers of 53 bits are finite. -/
theorem isFinite_whole {n : Int} (h : n.natAbs < 2 ^ 53) : (whole n).IsFinite := by
  refine ⟨decide (n < 0), Magnitude.nearest (n.natAbs * Magnitude.one) 1, ?_, rfl⟩
  have hbound : n.natAbs * Magnitude.one < 2 ^ (53 + Magnitude.precision) := by
    rw [Magnitude.one, Nat.pow_add]
    exact (Nat.mul_lt_mul_right (Nat.pow_pos (by decide))).mpr h
  have hlog : (n.natAbs * Magnitude.one / 1).log2 < 53 + Magnitude.precision := by
    rw [Nat.div_one]
    by_cases hzero : n.natAbs * Magnitude.one = 0
    · rw [hzero, Nat.log2_zero]
      omega
    · exact (Nat.log2_lt hzero).mpr hbound
  have hle := @Magnitude.nearest_le (n.natAbs * Magnitude.one) 1 _ rfl
  have hprecision : Magnitude.precision = 1074 := by decide +kernel
  have hinfinity : Magnitude.infinity = 2047 * 2 ^ 52 := rfl
  omega

theorem isReadable_pathCommands (i : Nat) : ∀ c ∈ pathCommands i, c.isReadable = true := by
  -- the place of the path is between 0 and 500
  have hplaces : (whole (i % 500)).IsFinite ∧ (whole (i % 500 + 10)).IsFinite ∧
      (whole (i % 500 + 20)).IsFinite :=
    ⟨isFinite_whole (by omega), isFinite_whole (by omega), isFinite_whole (by omega)⟩
  have hheights : (whole 0).IsFinite ∧ (whole 100).IsFinite ∧ (whole 110).IsFinite ∧
      (whole 120).IsFinite := by
    decide +kernel
  have htenths : (tenths 1).IsFinite ∧ (tenths 2).IsFinite ∧ (tenths 3).IsFinite ∧
      (tenths 5).IsFinite := by
    decide +kernel
  simpa [pathCommands, Command.isReadable, Command.instructions, Argument.isReadable, hheights,
    htenths] using hplaces

theorem isReadable_strokedPaths (n : Nat) : ∀ c ∈ strokedPaths n, c.isReadable = true := by
  intro c hc
  obtain ⟨i, -, hi⟩ := List.mem_flatMap.mp hc
  exact isReadable_pathCommands i c hi

theorem isReadable_textLines (m : Nat) : ∀ c ∈ textLines m, c.isReadable = true := by
  intro c hc
  have hlines : ∀ i, ∀ c ∈ lineCommands i, c.isReadable = true := by
    intro i
    rw [lineCommands, List.forall_mem_cons, List.forall_mem_singleton]
    exact ⟨by decide +kernel, rfl⟩
  have hfirst : ∀ c ∈ [Command.beginText, .font "F1" (whole 10)], c.isReadable = true := by
    decide +kernel
  rcases List.mem_append.mp hc with hc | hc
  · rcases List.mem_append.mp hc with hc | hc
    · exact hfirst c hc
    · obtain ⟨i, -, hi⟩ := List.mem_flatMap.mp hc
      exact hlines i c hi
  · rw [List.mem_singleton.mp hc]
    rfl

/-! ### Main result -/

/-- Two streams are parsed as one if the instructions of both are items. -/
theorem exists_parse_append {o : Options} (ho : 1 ≤ o.nestingLimit) {cs ds : List Command}
    (hcs : ∀ c ∈ cs, c.isReadable = true) (hds : ∀ c ∈ ds, c.isReadable = true)
    {P : List Node → Prop} (hitems : ∀ ts,
      AreCalled o.nestingLimit (instructionsOf (cs ++ ds)) ts [] →
        ∃ ns, AreItems o (Setting.outermost o) true ts [] ns ∧ P ns) :
    ∃ s, ContentStream.parse o ((empty.addAll cs).bytes ++ (empty.addAll ds).bytes) = .ok s ∧
      P s.children ∧
      s.operatorCount = (empty.addAll cs).operatorCount + (empty.addAll ds).operatorCount := by
  have hparse := exists_parse_addAll ho (List.forall_mem_append.mpr ⟨hcs, hds⟩) hitems
  rwa [bytes_addAll_empty, List.flatMap_append, ← bytes_addAll_empty, ← bytes_addAll_empty,
    operatorCount_addAll_empty, List.flatMap_append, List.length_append,
    ← operatorCount_addAll_empty, ← operatorCount_addAll_empty] at hparse

/-- **Sample pages** of any size can be joined in either order. The state blocks and the
    text object are in the tree in this order, and there are as many operators as both
    builders have counted. -/
theorem parse_pages (n m : Nat) :
    (∃ s blocks text, ContentStream.parse Profile.default.options
        ((pageWithPaths n).bytes ++ (pageWithText m).bytes) = .ok s ∧
      s.children = blocks ++ [text] ∧ AreSampleItems n m blocks text ∧
      s.operatorCount = 8 * n + 2 * m + 3) ∧
    (∃ s blocks text, ContentStream.parse Profile.default.options
        ((pageWithText m).bytes ++ (pageWithPaths n).bytes) = .ok s ∧
      s.children = text :: blocks ∧ AreSampleItems n m blocks text ∧
      s.operatorCount = 8 * n + 2 * m + 3) ∧
    (pageWithPaths n).operatorCount + (pageWithText m).operatorCount = 8 * n + 2 * m + 3 := by
  have hpaths : (empty.addAll (strokedPaths n)).operatorCount = 8 * n :=
    operatorCount_pageWithPaths n
  have htext : (empty.addAll (textLines m)).operatorCount = 2 * m + 3 :=
    operatorCount_pageWithText m
  have hlimit : 1 ≤ Profile.default.options.nestingLimit := by decide
  have hw : ∀ s, (Setting.outermost Profile.default.options).allows s :=
    fun s => ⟨hlimit, fun _ => rfl⟩
  refine ⟨?_, ?_, ?_⟩
  · obtain ⟨s, hs, ⟨blocks, text, hitems, hchildren⟩, hcount⟩ :=
      exists_parse_append hlimit (isReadable_strokedPaths n) (isReadable_textLines m)
        (P := fun ns => ∃ blocks text, AreSampleItems n m blocks text ∧ ns = blocks ++ [text]) (by
        intro ts h
        obtain ⟨blocks, text, hitems, hns⟩ := exists_paths_text hw h
        exact ⟨_, hns true, blocks, text, hitems, rfl⟩)
    exact ⟨s, blocks, text, hs, hchildren, hitems, by omega⟩
  · obtain ⟨s, hs, ⟨blocks, text, hitems, hchildren⟩, hcount⟩ :=
      exists_parse_append hlimit (isReadable_textLines m) (isReadable_strokedPaths n)
        (P := fun ns => ∃ blocks text, AreSampleItems n m blocks text ∧ ns = text :: blocks) (by
        intro ts h
        obtain ⟨blocks, text, hitems, hns⟩ := exists_text_paths hw h
        exact ⟨_, hns true, blocks, text, hitems, rfl⟩)
    exact ⟨s, blocks, text, hs, hchildren, hitems, by omega⟩
  · exact (congrArg₂ (· + ·) hpaths htext).trans (by omega)

end Builder

end PageContent
