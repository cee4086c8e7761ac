import PageContent.Parse

/-! # The grammar of content streams

    Which token lists are content streams, and what their trees are. Nothing
    here reads tokens: every rule relates tokens to what they stand for.

    * **Operands** are scalars, arrays and dictionaries. A rule of operands
      relates a token list, all of it, to what it means.
    * **Calls and items** take their tokens from the front of a list. Their
      rules relate the list, what is left of it, and what was in between.
    * **Settings**: what an item may be depends on what it stands in, namely
      the level, whether a compatibility section is open, and how many sections
      may still be opened.
    * **Content**: the items of the whole stream, which leave no token.
-/

namespace PageContent

/-- The greatest depth of sections, and of containers, under some options. -/
def Options.nestingLimit (o : Options) : Nat :=
  min o.maxNesting deepestNesting

/-- The operands that an arity describes: their number is allowed, and each of
    them is what is asked for at its place. -/
def Arity.Fits (arity : Arity) (xs : List Operand) : Prop :=
  arity.acceptsCount xs.length ∧
    ∀ i x demand, xs[i]? = some x → arity.demand? i xs.length = some demand → demand.accepts x

namespace Grammar

/-! ## Operands -/

mutual

/-- `IsOperand d ts x s`: the tokens `ts` are the operand `x`, which lies at
    `s`. No more than `d` containers are within each other. -/
inductive IsOperand : Nat → List Token → Operand → Span → Prop where
  | scalar {d : Nat} {t : Token} {x : Operand}
      (hx : t.lexeme.scalar? = some x) :
      IsOperand d [t] x t.span
  | array {d : Nat} {opened closed : Token} {ts : List Token} {xs : List (Operand × Span)}
      (ho : opened.lexeme = .arrayOpen) (hxs : AreOperands d ts xs)
      (hc : closed.lexeme = .arrayClose) :
      IsOperand (d + 1) (opened :: ts ++ [closed]) (.array (xs.map (·.1)))
        (opened.span.join closed.span)
  | dictionary {d : Nat} {opened closed : Token} {ts : List Token}
      {es : List (String × Operand)}
      (ho : opened.lexeme = .dictOpen) (hes : AreEntries d ts es)
      (hc : closed.lexeme = .dictClose) :
      IsOperand (d + 1) (opened :: ts ++ [closed]) (.dictionary es)
        (opened.span.join closed.span)

/-- Operands one after the other, with their places. -/
inductive AreOperands : Nat → List Token → List (Operand × Span) → Prop where
  | nil {d : Nat} : AreOperands d [] []
  | cons {d : Nat} {ts us : List Token} {x : Operand} {s : Span} {xs : List (Operand × Span)}
      (hx : IsOperand d ts x s) (hxs : AreOperands d us xs) :
      AreOperands d (ts ++ us) ((x, s) :: xs)

/-- Entries of a dictionary: a name and an operand in turn. -/
inductive AreEntries : Nat → List Token → List (String × Operand) → Prop where
  | nil {d : Nat} : AreEntries d [] []
  | cons {d : Nat} {t : Token} {key : String} {ts us : List Token} {x : Operand} {s : Span}
      {es : List (String × Operand)}
      (hk : t.lexeme = .name key) (hx : IsOperand d ts x s) (hes : AreEntries d us es) :
      AreEntries d (t :: ts ++ us) ((key, x) :: es)

end

/-! ## Calls -/

/-- A call lies from its first operand to its operator. -/
def callSpan (operands : List (Operand × Span)) (place : Span) : Span :=
  match operands with
  | [] => place
  | (_, s) :: _ => s.join place

/-- A call of the operator `op`: its operands, then its keyword. -/
inductive IsCall (d : Nat) (op : Operator) : List Token → List Token → Invocation → Prop where
  | mk {pending rest : List Token} {t : Token} {keyword : String}
      {operands : List (Operand × Span)}
      (hpending : AreOperands d pending operands)
      (ht : t.lexeme = .operator keyword)
      (hop : Operator.lookup? keyword = some op)
      (hfits : op.arity.Fits (operands.map (·.1))) :
      IsCall d op (pending ++ t :: rest) rest
        { production := op.production, keyword, category := some op.category,
          operands := operands.map (·.1), span := callSpan operands t.span }

/-- A call of a keyword about which nothing is known. Its operands may be
    anything. -/
inductive IsUncheckedCall (d : Nat) : List Token → List Token → Invocation → Prop where
  | mk {pending rest : List Token} {t : Token} {keyword : String}
      {operands : List (Operand × Span)}
      (hpending : AreOperands d pending operands) (ht : t.lexeme = .operator keyword) :
      IsUncheckedCall d (pending ++ t :: rest) rest
        { production := .unknownOperator, keyword, category := none,
          operands := operands.map (·.1), span := callSpan operands t.span }

/-! ## Settings -/

/-- What an item stands in. -/
structure Setting where
  level : Level
  /-- Whether a compatibility section is open. -/
  tolerant : Bool
  /-- How many sections may still be opened within each other. -/
  room : Nat
  deriving DecidableEq, Repr

namespace Setting

/-- The setting of the items of the whole stream. -/
def outermost (o : Options) : Setting :=
  ⟨.page, false, o.nestingLimit⟩

/-- The setting inside a section. -/
def inside (w : Setting) : Section → Setting
  | .textObject => ⟨.text, w.tolerant, w.room - 1⟩
  | .stateBlock => ⟨.page, w.tolerant, w.room - 1⟩
  | .markedContent => ⟨w.level, w.tolerant, w.room - 1⟩
  | .compatibility => ⟨w.level, true, w.room - 1⟩

/-- Text objects and state blocks stand at page level, the other sections at
    either level; and there must be room. -/
def allows (w : Setting) (s : Section) : Prop :=
  0 < w.room ∧ (s = .textObject ∨ s = .stateBlock → w.level = .page)

end Setting

/-- The operators that are items by themselves. Glyph descriptions are, where
    `glyph` says so. -/
def isSingle (level : Level) (glyph : Bool) (op : Operator) : Bool :=
  match op.category with
  | .generalGraphicsState | .color | .textState => true
  | .textPositioning | .textShowing => level = .text
  | .shadingPattern | .xObject => level = .page
  | .type3Font => level = .page && glyph
  | .specialGraphicsState => level = .page && op.production = .concatMatrix
  | .markedContent => op.production = .markedContentPoint
  | _ => false

/-! ## Items -/

/-- Drawing operators one after the other. -/
inductive AreDrawn (d : Nat) : List Token → List Token → List Invocation → Prop where
  | nil {ts : List Token} : AreDrawn d ts ts []
  | cons {op : Operator} {ts us rest : List Token} {call : Invocation} {calls : List Invocation}
      (hcall : IsCall d op ts us call) (hop : op.category = .pathConstruction)
      (hcalls : AreDrawn d us rest calls) :
      AreDrawn d ts rest (call :: calls)

/-- A clipping operator, or nothing. -/
inductive IsClip (d : Nat) : List Token → List Token → Option Invocation → Prop where
  | none {ts : List Token} : IsClip d ts ts none
  | some {op : Operator} {ts rest : List Token} {call : Invocation}
      (hcall : IsCall d op ts rest call) (hop : op.production = .clipping) :
      IsClip d ts rest (some call)

/-- An operator that ends a path. -/
inductive IsPaint (d : Nat) : List Token → List Token → Invocation → Prop where
  | mk {op : Operator} {ts rest : List Token} {call : Invocation}
      (hcall : IsCall d op ts rest call)
      (hop : op.production = .pathPainting ∨ op.production = .endPath) :
      IsPaint d ts rest call

/-- A call of an operator of a production. -/
inductive IsCallOf (d : Nat) (p : Production) : List Token → List Token → Invocation → Prop where
  | mk {op : Operator} {ts rest : List Token} {call : Invocation}
      (hcall : IsCall d op ts rest call) (hop : op.production = p) :
      IsCallOf d p ts rest call

/-- The node of a path. -/
def pathNode (drawn : List Invocation) (clip : Option Invocation) (paint : Invocation) : Node :=
  .ofChildren .pathObject
    (.ofChildren .pathConstruction (drawn.map .invocation) ::
      (clip.toList ++ [paint]).map .invocation)

mutual

/-- `IsItem o w glyph ts rest n`: in the setting `w` the tokens `ts` begin with
    the item `n`, and `rest` comes after it. Glyphs may be described if `glyph`
    is true. -/
inductive IsItem (o : Options) :
    Setting → Bool → List Token → List Token → Node → Prop where
  | single {w : Setting} {glyph : Bool} {op : Operator} {ts rest : List Token}
      {call : Invocation}
      (hcall : IsCall o.nestingLimit op ts rest call)
      (hop : isSingle w.level glyph op) :
      IsItem o w glyph ts rest (.invocation call)
  /-- An operator outside the catalog. -/
  | undefined {w : Setting} {glyph : Bool} {ts rest : List Token} {call : Invocation}
      (hcall : IsUncheckedCall o.nestingLimit ts rest call)
      (hop : Operator.lookup? call.keyword = none)
      (hw : w.tolerant) (ho : o.undefinedOperators) :
      IsItem o w glyph ts rest (.invocation call)
  | path {w : Setting} {glyph : Bool} {ts us vs rest : List Token}
      {drawn : List Invocation} {clip : Option Invocation} {paint : Invocation}
      (hdrawn : AreDrawn o.nestingLimit ts us drawn) (hne : drawn ≠ [])
      (hclip : IsClip o.nestingLimit us vs clip)
      (hpaint : IsPaint o.nestingLimit vs rest paint)
      (hw : w.level = .page) :
      IsItem o w glyph ts rest (pathNode drawn clip paint)
  | image {w : Setting} {glyph : Bool} {ts us vs rest : List Token}
      {begin data fin : Invocation}
      (hbegin : IsCallOf o.nestingLimit .beginInlineImage ts us begin)
      (hdata : IsCallOf o.nestingLimit .inlineImageData us vs data)
      (hfin : IsCallOf o.nestingLimit .endInlineImage vs rest fin)
      (hw : w.level = .page) :
      IsItem o w glyph ts rest
        (.ofChildren .inlineImage ([begin, data, fin].map .invocation))
  | closed {w : Setting} {glyph : Bool} {s : Section} {ts us vs rest : List Token}
      {opening closing : Invocation} {ns : List Node}
      (hw : w.allows s)
      (hopening : IsCallOf o.nestingLimit s.opening ts us opening)
      (hns : AreItems o (w.inside s) false us vs ns)
      (hclosing : IsCallOf o.nestingLimit s.closing vs rest closing) :
      IsItem o w glyph ts rest
        (.ofChildren s.production (.invocation opening :: ns ++ [.invocation closing]))
  /-- A state block that runs to the end of the stream. -/
  | unclosed {w : Setting} {glyph : Bool} {ts us : List Token} {opening : Invocation}
      {ns : List Node}
      (ho : o.unclosedStates) (hw : w.allows .stateBlock)
      (hopening : IsCallOf o.nestingLimit .saveState ts us opening)
      (hns : AreItems o (w.inside .stateBlock) false us [] ns) :
      IsItem o w glyph ts [] (.ofChildren .graphicsStateBlock (.invocation opening :: ns))

/-- Items one after the other. Only before the first of them `glyph` counts. -/
inductive AreItems (o : Options) :
    Setting → Bool → List Token → List Token → List Node → Prop where
  | nil {w : Setting} {glyph : Bool} {ts : List Token} : AreItems o w glyph ts ts []
  | cons {w : Setting} {glyph : Bool} {ts us rest : List Token} {n : Node} {ns : List Node}
      (hn : IsItem o w glyph ts us n) (hns : AreItems o w false us rest ns) :
      AreItems o w glyph ts rest (n :: ns)

end

/-- The tokens are a content stream with the root `n`. A glyph may be described
    by the first item only. -/
def IsContent (o : Options) (ts : List Token) (n : Node) : Prop :=
  ∃ ns, AreItems o (Setting.outermost o) true ts [] ns ∧ n = .ofChildren .content ns

end Grammar

end PageContent
