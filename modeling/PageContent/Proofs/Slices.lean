import PageContent.Proofs.Locations
import PageContent.Proofs.Concatenation
import PageContent.Proofs.Confinement
import PageContent.Proofs.Fragments
import PageContent.Proofs.PathDescent

/-! # Nodes in their own bytes

    A node is read again from the bytes at its span, and lies there where it lay, counted
    from its start. State blocks, text objects and the like are left out: what they may
    hold depends on what is around them.

    * **Relocation**: tokens elsewhere are the same tree elsewhere.
    * **Parsing**: tokens that are a fragment are what its production asks for.
    * **Lexing**: the bytes of some tokens in a row are read as these tokens, if image
      data neither starts nor comes next.
-/

namespace PageContent

open Grammar

/-! ## Trees elsewhere -/

namespace Relocation

variable (f : Relocation) {d : Nat} {ts rest : List Token}

@[simp] theorem lexeme_token (t : Token) : (f.token t).lexeme = t.lexeme :=
  rfl

@[simp] theorem span_token (t : Token) : (f.token t).span = f.span t.span :=
  rfl

theorem map_fst_placed (xs : List (Operand × Span)) :
    (xs.map f.placed).map (·.1) = xs.map (·.1) := by
  rw [List.map_map]
  rfl

theorem callSpan_placed (xs : List (Operand × Span)) (place : Span) :
    callSpan (xs.map f.placed) (f.span place) = f.span (callSpan xs place) := by
  cases xs with
  | nil => rfl
  | cons x xs => exact (f.span_join x.2 place).symm

mutual

theorem isOperand_tokens {d : Nat} {ts : List Token} {x : Operand} {s : Span}
    (h : IsOperand d ts x s) : IsOperand d (ts.map f.token) x (f.span s) := by
  match h with
  | @IsOperand.scalar _ t _ hx => exact @IsOperand.scalar _ (f.token t) _ hx
  | @IsOperand.array _ opened closed _ xs ho hxs hc =>
    have harray := @IsOperand.array _ (f.token opened) (f.token closed) _ _ ho
      (areOperands_tokens hxs) hc
    rw [map_fst_placed] at harray
    simpa [f.span_join] using harray
  | @IsOperand.dictionary _ opened closed _ es ho hes hc =>
    have hdictionary := @IsOperand.dictionary _ (f.token opened) (f.token closed) _ _ ho
      (areEntries_tokens hes) hc
    simpa [f.span_join] using hdictionary

theorem areOperands_tokens {d : Nat} {ts : List Token} {xs : List (Operand × Span)}
    (h : AreOperands d ts xs) : AreOperands d (ts.map f.token) (xs.map f.placed) := by
  match h with
  | .nil => exact AreOperands.nil
  | .cons hx hxs =>
    rw [List.map_append]
    exact AreOperands.cons (isOperand_tokens hx) (areOperands_tokens hxs)

theorem areEntries_tokens {d : Nat} {ts : List Token} {es : List (String × Operand)}
    (h : AreEntries d ts es) : AreEntries d (ts.map f.token) es := by
  match h with
  | .nil => exact AreEntries.nil
  | @AreEntries.cons _ t _ _ _ _ _ _ hk hx hes =>
    rw [List.map_append, List.map_cons]
    exact @AreEntries.cons _ (f.token t) _ _ _ _ _ _ hk (isOperand_tokens hx)
      (areEntries_tokens hes)

end

/-- A relation of the grammar holds of tokens elsewhere, and what they are is elsewhere
    too. -/
def Carries {α : Type} (R : List Token → List Token → α → Prop) (g : α → α) : Prop :=
  ∀ ⦃ts rest : List Token⦄ ⦃a : α⦄, R ts rest a → R (ts.map f.token) (rest.map f.token) (g a)

theorem carries_isCall {op : Operator} : f.Carries (IsCall d op) f.invocation := by
  intro ts rest call h
  cases h with
  | @mk pending _ t keyword xs hpending ht hop hfits =>
    rw [← f.map_fst_placed] at hfits
    have hcall := @IsCall.mk d op _ (rest.map f.token) (f.token t) keyword _
      (f.areOperands_tokens hpending) ht hop hfits
    rw [map_fst_placed, span_token, callSpan_placed] at hcall
    rw [List.map_append, List.map_cons]
    exact hcall

theorem carries_isUncheckedCall : f.Carries (IsUncheckedCall d) f.invocation := by
  intro ts rest call h
  cases h with
  | @mk pending _ t keyword xs hpending ht =>
    have hcall := @IsUncheckedCall.mk d _ (rest.map f.token) (f.token t) keyword _
      (f.areOperands_tokens hpending) ht
    rw [map_fst_placed, span_token, callSpan_placed] at hcall
    rw [List.map_append, List.map_cons]
    exact hcall

theorem carries_isCallOf {p : Production} : f.Carries (IsCallOf d p) f.invocation := by
  intro ts rest call h
  obtain ⟨hcall, hop⟩ := h
  exact IsCallOf.mk (f.carries_isCall hcall) hop

theorem carries_isPaint : f.Carries (IsPaint d) f.invocation := by
  intro ts rest call h
  obtain ⟨hcall, hop⟩ := h
  exact IsPaint.mk (f.carries_isCall hcall) hop

theorem carries_isClip : f.Carries (IsClip d) (Option.map f.invocation) := by
  intro ts rest clip h
  cases h with
  | none => exact IsClip.none
  | some hcall hop => exact IsClip.some (f.carries_isCall hcall) hop

theorem carries_areDrawn : f.Carries (AreDrawn d) (List.map f.invocation) := by
  intro ts rest calls h
  induction h with
  | nil => exact AreDrawn.nil
  | cons hcall hop hcalls ih => exact AreDrawn.cons (f.carries_isCall hcall) hop ih

variable {f}

theorem Carries.takes {α : Type} {R : List Token → List Token → α → Prop} {g : α → α} {a : α}
    (hcarries : f.Carries R g) (hlocal : IsLocal R) (h : Takes R ts a) :
    Takes R (ts.map f.token) (g a) := by
  have hR := hcarries (h [])
  rw [List.append_nil, List.map_nil] at hR
  obtain ⟨seg, hts, hseg⟩ := hlocal hR
  rw [List.append_nil] at hts
  exact hts ▸ hseg

variable (f)

theorem node_pathNode {drawn : List Invocation} (hne : drawn ≠ []) (clip : Option Invocation)
    (paint : Invocation) :
    f.node (pathNode drawn clip paint) =
      pathNode (drawn.map f.invocation) (clip.map f.invocation) (f.invocation paint) := by
  have hreverse := f.pathNode_invocations (List.reverse_ne_nil_iff.mpr hne) clip paint
  unfold Recognizer.pathNode at hreverse
  rw [← List.map_reverse, List.reverse_reverse] at hreverse
  exact hreverse.symm

mutual

/-- **Relocation**: tokens elsewhere are the same tree elsewhere. -/
theorem isTree_tokens {d : Nat} {ts : List Token} {n : Node} (h : IsTree d ts n) :
    IsTree d (ts.map f.token) (f.node n) := by
  match h with
  | .known hcall => exact IsTree.known (f.carries_isCall.takes isLocal_isCall hcall)
  | .undefined hcall hop =>
    exact IsTree.undefined (f.carries_isUncheckedCall.takes isLocal_isUncheckedCall hcall) hop
  | @IsTree.construction _ _ drawn hdrawn hne =>
    rw [f.node_ofChildren _ (by simpa using hne), map_node_invocations]
    exact IsTree.construction (f.carries_areDrawn.takes isLocal_areDrawn hdrawn)
      (by simpa using hne)
  | .path hdrawn hne hclip hpaint =>
    rw [f.node_pathNode hne, List.map_append, List.map_append]
    exact IsTree.path (f.carries_areDrawn.takes isLocal_areDrawn hdrawn) (by simpa using hne)
      (f.carries_isClip.takes isLocal_isClip hclip)
      (f.carries_isPaint.takes isLocal_isPaint hpaint)
  | .image hbegin hdata hfin =>
    rw [f.node_ofChildren _ (by simp), map_node_invocations, List.map_append, List.map_append]
    exact IsTree.image (f.carries_isCallOf.takes isLocal_isCallOf hbegin)
      (f.carries_isCallOf.takes isLocal_isCallOf hdata)
      (f.carries_isCallOf.takes isLocal_isCallOf hfin)
  | .within hcs hne =>
    rw [f.node_ofChildren _ hne]
    exact IsTree.within (areTrees_tokens hcs) (by simpa using hne)

theorem areTrees_tokens {d : Nat} {ts : List Token} {ns : List Node} (h : AreTrees d ts ns) :
    AreTrees d (ts.map f.token) (ns.map f.node) := by
  match h with
  | .nil => exact AreTrees.nil
  | .cons hn hns =>
    rw [List.map_append]
    exact AreTrees.cons (isTree_tokens hn) (areTrees_tokens hns)

end

end Relocation

/-! ## Parsing -/

/-- The nodes that are read again from their own bytes: paths and what is drawn in them,
    inline images, and invocations. `ID` and `EI` are left out, as image data is between
    them. -/
def Node.IsFragment : Node → Prop
  | .invocation call => call.keyword ≠ "ID" ∧ call.keyword ≠ "EI"
  | .group p _ _ => p = .pathConstruction ∨ p = .pathObject ∨ p = .inlineImage

theorem Section.not_isFragment (s : Section) (cs : List Node) :
    ¬ (Node.ofChildren s.production cs).IsFragment := by
  cases s <;> simp [Node.ofChildren, Node.IsFragment, Section.production]

section

variable {d : Nat} {o : Options} {ts rest : List Token}

/-- The tokens of a call are a phrase. -/
theorem Phrase.exists_of_isCall {limit : Nat} {op : Operator} {call : Invocation}
    (h : IsCall (min limit deepestNesting) op ts rest call) :
    ∃ ph : Phrase, ph.Proper ∧ ts = ph.tokens ++ rest ∧ ph.operator? = some op ∧
      ph.invocation limit op.production = .ok call := by
  have hcall := h
  cases h with
  | @mk pending _ t keyword xs hpending ht hop hfits =>
    obtain ⟨lexeme, place⟩ := t
    obtain rfl : lexeme = .operator keyword := ht
    have hproper : (Phrase.mk pending keyword place).Proper := noOperator_of_areOperands hpending
    have htokens := (Phrase.tokens_append ⟨pending, keyword, place⟩ rest).symm
    obtain ⟨-, hoperator, hinvocation⟩ := (Phrase.isCall_iff hproper).mp (htokens ▸ hcall)
    exact ⟨⟨pending, keyword, place⟩, hproper, htokens, hoperator, hinvocation⟩

/-- Drawing operators are read one after the other. -/
theorem Recognizer.runConstruction_of_areDrawn {calls : List Invocation}
    (h : AreDrawn o.nestingLimit ts rest calls) (drawn : List Invocation) (feed : Feed) :
    runConstruction o.maxNesting drawn (Feed.ofTokens ts feed) =
      runConstruction o.maxNesting (calls.reverse ++ drawn) (Feed.ofTokens rest feed) := by
  induction h generalizing drawn with
  | nil => rfl
  | @cons op ts us rest call calls hcall hop hcalls ih =>
    obtain ⟨ph, hproper, rfl, hoperator, hinvocation⟩ := Phrase.exists_of_isCall hcall
    have hfeed : Feed.ofTokens (ph.tokens ++ us) feed = .phrase ph (Feed.ofTokens us feed) := by
      rw [Phrase.tokens_append]
      exact ofTokens_operator hproper rfl us feed
    rw [hfeed, Descent.runConstruction_drawing o.maxNesting hoperator hop, hinvocation]
    dsimp only
    rw [ih, List.reverse_cons, List.append_assoc]
    rfl

end

namespace Node

variable {bytes : List UInt8} {ts : List Token} {eof : Token}

theorem parseAs_pathConstruction (htokens : tokenize bytes = .ok (ts ++ [eof]))
    (heof : eof.lexeme = .eof) {drawn : List Invocation} (hne : drawn ≠ [])
    (h : Takes (AreDrawn Profile.default.options.nestingLimit) ts drawn) :
    parseAs .pathConstruction bytes =
      .ok (.ofChildren .pathConstruction (drawn.map .invocation)) := by
  have hdrawn := h []
  rw [List.append_nil] at hdrawn
  have hread : Recognizer.read Profile.default.options .pathConstruction (Feed.ofBytes bytes) =
      .ok (.ofChildren .pathConstruction (drawn.map .invocation), .finish [] eof) := by
    rw [Feed.ofBytes_of_tokenize htokens]
    show Recognizer.runConstruction _ [] _ = _
    rw [Recognizer.runConstruction_of_areDrawn hdrawn, List.append_nil]
    show Recognizer.runConstruction.stop drawn.reverse eof (.finish [] eof) = _
    rw [Recognizer.runConstruction.stop, if_neg (List.reverse_ne_nil_iff.mpr hne),
      List.reverse_reverse]
  have hend : Recognizer.expectEnd (.finish [] eof) = .ok () :=
    Recognizer.expectEnd_eq_ok_iff.mpr ⟨eof, rfl, heof⟩
  unfold parseAs Recognizer.readAll
  simp only [hread, hend]

/-- **Fragments**: tokens that are a fragment are what its production asks for. -/
theorem parseAs_of_isTree (htokens : tokenize bytes = .ok (ts ++ [eof]))
    (heof : eof.lexeme = .eof) {n : Node}
    (h : IsTree Profile.default.options.nestingLimit ts n) (hn : n.IsFragment) :
    parseAs n.production bytes = .ok n := by
  have hparse : n.production ≠ .pathConstruction →
      (Recognizer.start n.production).Demands Profile.default.options (ts ++ []) [] n →
      parseAs n.production bytes = .ok n := by
    intro hp hdemands
    rw [List.append_nil] at hdemands
    exact (parseAs_eq_ok_iff_demands hp).mpr ⟨ts, eof, htokens, heof, hdemands⟩
  cases h with
  | @known op _ call hcall =>
    obtain ⟨hmem, hproduction, -⟩ := Recognizer.operator_of_isCall (hcall [])
    obtain ⟨hgroup, hunknown⟩ := Recognizer.isGroup_of_mem_catalog hmem
    change Node.production (.invocation call) = _ at hproduction
    apply hparse
    · rw [hproduction]
      intro hp
      rw [hp] at hgroup
      exact absurd hgroup (by decide)
    · rw [hproduction, Recognizer.start_single hgroup hunknown]
      exact Recognizer.demands_part_iff.mpr (IsPart.single (IsCallOf.mk (hcall []) rfl))
  | @undefined _ call hcall hop =>
    have hproduction : Node.production (.invocation call) = .unknownOperator := by
      have hcall' := hcall []
      generalize ts ++ [] = us at hcall'
      cases hcall' with
      | mk hpending ht => rfl
    apply hparse
    · rw [hproduction]
      decide
    · rw [hproduction]
      exact Recognizer.demands_part_iff.mpr (IsPart.undefined (hcall []))
  | construction hdrawn hne => exact parseAs_pathConstruction htokens heof hne hdrawn
  | @path ts us vs _ _ _ hdrawn hne hclip hpaint =>
    apply hparse
    · show Production.pathObject ≠ .pathConstruction
      decide
    · rw [List.append_assoc, List.append_assoc]
      exact Recognizer.demands_part_iff.mpr
        (@IsPart.path _ _ [] _ _ _ _ _ _ _ (hdrawn _) hne (hclip _) (hpaint []))
  | image hbegin hdata hfin =>
    apply hparse
    · show Production.inlineImage ≠ .pathConstruction
      decide
    · rw [List.append_assoc, List.append_assoc]
      exact Recognizer.demands_part_iff.mpr (IsPart.image (hbegin _) (hdata _) (hfin []))
  | within hcs hne => exact absurd hn (Section.not_isFragment _ _)

end Node

/-! ## No image data at the ends -/

/-- The first operator is not `EI`. So the tokens do not start with image data. -/
def OpensPlainly (ts : List Token) : Prop :=
  ∃ pending t rest keyword, ts = pending ++ t :: rest ∧ NoOperator pending ∧
    t.lexeme = .operator keyword ∧ keyword ≠ "EI"

/-- The last token is an operator other than `ID`. So no image data comes next. -/
def ClosesPlainly (ts : List Token) : Prop :=
  ∃ earlier last keyword, ts = earlier ++ [last] ∧ last.lexeme = .operator keyword ∧
    keyword ≠ "ID"

section

variable {d : Nat} {ts us rest : List Token} {l l' : Lexer}

theorem OpensPlainly.append (h : OpensPlainly ts) (us : List Token) : OpensPlainly (ts ++ us) := by
  obtain ⟨pending, t, rest, keyword, rfl, hplain⟩ := h
  exact ⟨pending, t, rest ++ us, keyword, by simp, hplain⟩

theorem ClosesPlainly.append (h : ClosesPlainly us) (ts : List Token) :
    ClosesPlainly (ts ++ us) := by
  obtain ⟨earlier, last, keyword, rfl, hplain⟩ := h
  exact ⟨ts ++ earlier, last, keyword, by simp, hplain⟩

theorem OpensPlainly.dataNext (h : OpensPlainly ts) (hreach : l.Reaches ts l') :
    l.dataNext = false := by
  obtain ⟨pending, t, rest, keyword, rfl, hpending, ht, hkeyword⟩ := h
  apply eq_false_of_ne_true
  intro hdata
  generalize hts : pending ++ t :: rest = ts at hreach
  cases hreach with
  | refl => exact absurd hts (by simp)
  | @step _ l₁ _ u us hnext hne hrest =>
    -- data is followed by `EI`, which is the first operator then
    obtain ⟨data, place, l₂, hu, -, hfin⟩ := Lexer.exists_end_of_dataNext hdata hnext
    have hfirst : NoOperator [u] :=
      NoOperator.cons (fun keyword hk => by simp [hu] at hk) NoOperator.nil
    cases hrest with
    | refl =>
      have hmem : t ∈ [u] := by
        rw [← hts]
        simp
      exact hfirst t hmem keyword ht
    | @step _ _ _ v vs hnext' hne' hrest' =>
      rw [hfin] at hnext'
      obtain rfl := Except.ok.inj (Prod.mk.inj hnext').1
      obtain ⟨-, rfl, -⟩ := @first_operator_unique [u] _ _ _ _ _ _ _ hfirst hpending rfl ht hts.symm
      exact hkeyword (Lexeme.operator.inj ht).symm

theorem ClosesPlainly.dataNext (h : ClosesPlainly ts) (hreach : l.Reaches ts l') :
    l'.dataNext = false := by
  obtain ⟨earlier, last, keyword, rfl, hlast, hkeyword⟩ := h
  obtain ⟨l₁, -, hnext⟩ := hreach.of_concat
  apply eq_false_of_ne_true
  intro hdata
  rw [(Lexer.state_of_next hnext).2 hdata] at hlast
  exact hkeyword (Lexeme.operator.inj hlast).symm

end

namespace Operator

variable {op : Operator}

/-- Only operators of inline images stand next to image data. -/
theorem keyword_of_category (hop : op ∈ catalog) (h : op.category ≠ .inlineImage) :
    op.keyword ≠ "EI" ∧ op.keyword ≠ "ID" := by
  have hall : ∀ op ∈ catalog, op.category ≠ .inlineImage →
      op.keyword ≠ "EI" ∧ op.keyword ≠ "ID" := by decide +kernel
  exact hall op hop h

/-- An image neither starts nor ends next to its data. -/
theorem keyword_of_inlineImage (hop : op ∈ catalog) :
    (op.production = .beginInlineImage → op.keyword ≠ "EI") ∧
      (op.production = .endInlineImage → op.keyword ≠ "ID") := by
  have hall : ∀ op ∈ catalog, (op.production = .beginInlineImage → op.keyword ≠ "EI") ∧
      (op.production = .endInlineImage → op.keyword ≠ "ID") := by decide +kernel
  exact hall op hop

end Operator

namespace Grammar

variable {d : Nat} {ts rest : List Token} {op : Operator} {call : Invocation}

/-- Operands and an operator are plain at an end unless the operator is the one that
    stands next to image data there. -/
structure Plain (keyword : String) (ts : List Token) : Prop where
  opens : keyword ≠ "EI" → OpensPlainly ts
  closes : keyword ≠ "ID" → ClosesPlainly ts

theorem exists_plain_of_pending {pending : List Token} {t : Token} {keyword : String}
    {xs : List (Operand × Span)} (hpending : AreOperands d pending xs)
    (ht : t.lexeme = .operator keyword) (rest : List Token) :
    ∃ seg, pending ++ t :: rest = seg ++ rest ∧ Plain keyword seg :=
  ⟨pending ++ [t], List.append_cons pending t rest,
    fun hkeyword =>
      ⟨pending, t, [], keyword, rfl, noOperator_of_areOperands hpending, ht, hkeyword⟩,
    fun hkeyword => ⟨pending, t, keyword, rfl, ht, hkeyword⟩⟩

theorem exists_plain_of_isCall (h : IsCall d op ts rest call) :
    ∃ seg, ts = seg ++ rest ∧ Plain call.keyword seg := by
  obtain ⟨hpending, ht⟩ := h
  exact exists_plain_of_pending hpending ht _

theorem exists_plain_of_isUncheckedCall (h : IsUncheckedCall d ts rest call) :
    ∃ seg, ts = seg ++ rest ∧ Plain call.keyword seg := by
  obtain ⟨hpending, ht⟩ := h
  exact exists_plain_of_pending hpending ht _

theorem exists_plain_of_isPaint (h : IsPaint d ts rest call) :
    ∃ seg, ts = seg ++ rest ∧ ClosesPlainly seg := by
  obtain ⟨hcall, hop⟩ := h
  obtain ⟨hmem, -, hkeyword⟩ := Recognizer.operator_of_isCall hcall
  have hcategory := Operator.category_of_paint hmem hop
  have hplain := Operator.keyword_of_category hmem (by rw [hcategory]; decide)
  obtain ⟨seg, hts, hseg⟩ := exists_plain_of_isCall hcall
  exact ⟨seg, hts, hseg.closes (hkeyword ▸ hplain.2)⟩

theorem exists_plain_of_isCallOf {p : Production} (h : IsCallOf d p ts rest call) :
    ∃ seg, ts = seg ++ rest ∧ (p = .beginInlineImage → OpensPlainly seg) ∧
      (p = .endInlineImage → ClosesPlainly seg) := by
  obtain ⟨hcall, hop⟩ := h
  obtain ⟨hmem, -, hkeyword⟩ := Recognizer.operator_of_isCall hcall
  obtain ⟨seg, hts, hseg⟩ := exists_plain_of_isCall hcall
  have hplain := Operator.keyword_of_inlineImage hmem
  rw [← hkeyword, hop] at hplain
  exact ⟨seg, hts, fun hp => hseg.opens (hplain.1 hp), fun hp => hseg.closes (hplain.2 hp)⟩

/-- What is drawn is plain at both ends. -/
theorem plain_of_areDrawn {calls : List Invocation} (h : AreDrawn d ts rest calls)
    (hne : calls ≠ []) : ∃ seg, ts = seg ++ rest ∧ OpensPlainly seg ∧ ClosesPlainly seg := by
  induction h with
  | nil => exact absurd rfl hne
  | @cons op ts us rest call calls hcall hop hcalls ih =>
    obtain ⟨hmem, -, hkeyword⟩ := Recognizer.operator_of_isCall hcall
    have hplain := Operator.keyword_of_category hmem (by rw [hop]; decide)
    rw [← hkeyword] at hplain
    obtain ⟨seg, rfl, hseg⟩ := exists_plain_of_isCall hcall
    cases calls with
    | nil =>
      cases hcalls
      exact ⟨seg, rfl, hseg.opens hplain.1, hseg.closes hplain.2⟩
    | cons call' calls =>
      obtain ⟨segs, rfl, -, hcloses⟩ := ih (List.cons_ne_nil _ _)
      exact ⟨seg ++ segs, (List.append_assoc seg segs rest).symm,
        (hseg.opens hplain.1).append segs, hcloses.append seg⟩

/-- **Ends**: a fragment is plain at both ends. -/
theorem plain_of_isTree {n : Node} (h : IsTree d ts n) (hn : n.IsFragment) :
    OpensPlainly ts ∧ ClosesPlainly ts := by
  cases h with
  | known hcall =>
    have hplain := hcall.of_local exists_plain_of_isCall
    exact ⟨hplain.opens hn.2, hplain.closes hn.1⟩
  | undefined hcall hop =>
    have hplain := hcall.of_local exists_plain_of_isUncheckedCall
    exact ⟨hplain.opens hn.2, hplain.closes hn.1⟩
  | construction hdrawn hne =>
    exact hdrawn.of_local fun hdrawn => plain_of_areDrawn hdrawn hne
  | path hdrawn hne hclip hpaint =>
    have hopens := hdrawn.of_local fun hdrawn => plain_of_areDrawn hdrawn hne
    have hcloses := hpaint.of_local exists_plain_of_isPaint
    exact ⟨hopens.1.append _, (hcloses.append _).append _⟩
  | image hbegin hdata hfin =>
    have hopens := (hbegin.of_local exists_plain_of_isCallOf).1 rfl
    have hcloses := (hfin.of_local exists_plain_of_isCallOf).2 rfl
    exact ⟨hopens.append _, (hcloses.append _).append _⟩
  | within hcs hne => exact absurd hn (Section.not_isFragment _ _)

end Grammar

/-! ## Lexing -/

namespace Lexer

variable {l l' : Lexer} {t : Token} {ts us : List Token}

/-- What is found further on is found here. -/
theorem Reaches.of_shift {n : Nat} (h : Reaches (l.shift n) ts l') :
    ∃ us l₁, Reaches l us l₁ ∧ ts = us.map (Relocation.shift n []).token ∧ l' = l₁.shift n := by
  induction ts generalizing l with
  | nil =>
    cases h
    exact ⟨[], l, Reaches.refl, rfl, rfl⟩
  | cons t ts ih =>
    cases h with
    | step hnext hne hrest =>
      rw [next_shift n [] l] at hnext
      obtain ⟨hfirst, rfl⟩ := Prod.mk.inj hnext
      obtain ⟨us, l₁, hreach, rfl, rfl⟩ := ih hrest
      cases hl : l.next.1 with
      | error e =>
        rw [hl] at hfirst
        exact absurd hfirst (by simp [mapBoth])
      | ok u =>
        rw [hl] at hfirst
        obtain rfl := Except.ok.inj hfirst
        exact ⟨u :: us, l₁, Reaches.step (Prod.ext hl rfl) hne hreach, rfl, rfl⟩

/-- The gap in front of the first token may be left out. -/
theorem Reaches.skip_gap (h : Reaches l (t :: ts) l') (hdata : l.dataNext = false) :
    ∃ g r, l.rest = g ++ r ∧ t.span.start = l.position + g.length ∧
      Reaches ⟨r, t.span.start, false⟩ (t :: ts) l' := by
  obtain ⟨bytes, position, dataNext⟩ := l
  obtain rfl : dataNext = false := hdata
  cases h with
  | @step _ l₁ _ _ _ hnext hne hrest =>
    obtain ⟨g, c, hbytes, -, hread, hspan, hposition, hdata'⟩ := of_next_plain hnext
    have hstart : t.span.start = position + g.length := by rw [hspan]
    have hnext' := next_front hread (position + g.length)
    refine ⟨g, c ++ l₁.rest, hbytes, hstart, Reaches.step ?_ hne hrest⟩
    rw [hstart]
    rw [← hspan, ← hposition, ← hdata'] at hnext'
    exact hnext'

/-- What comes after the last token may be left out too, if no image data comes next. -/
theorem Reaches.cut {r : List UInt8} {start : Nat} (h : Reaches ⟨r, start, false⟩ ts l')
    (hcloses : ClosesPlainly ts) :
    ∃ x, r = x ++ l'.rest ∧ l'.position = start + x.length ∧
      Reaches ⟨x, start, false⟩ ts ⟨[], l'.position, false⟩ := by
  have hflag := hcloses.dataNext h
  obtain ⟨earlier, last, keyword, rfl, hlast, -⟩ := hcloses
  have hend : ∀ u data, (earlier ++ [last]).getLast? = some u → u.lexeme = .inlineData data →
      ∀ t l'', l'.next = (.ok t, l'') → t.lexeme ≠ .operator "EI" := by
    intro u data hu hdata
    rw [List.getLast?_concat, Option.some.injEq] at hu
    rw [← hu, hlast] at hdata
    exact absurd hdata (by simp)
  obtain ⟨x, hr, hposition, hreach⟩ := @Reaches.edit _ _ _ h [] hend (fun _ => wordEnds_nil)
    (fun _ b hb => absurd hb (by simp))
  rw [List.append_nil, hflag] at hreach
  exact ⟨x, hr, hposition, hreach⟩

/-- Bytes that are read to their end, wherever they lie, are read alike on their own. -/
theorem Reaches.tokenize {x : List UInt8} {start stop : Nat}
    (h : Reaches ⟨x, start, false⟩ ts ⟨[], stop, false⟩) :
    ∃ us eof, PageContent.tokenize x = .ok (us ++ [eof]) ∧ eof.lexeme = .eof ∧
      ts = us.map (Relocation.shift start []).token := by
  have hshift : (⟨x, start, false⟩ : Lexer) = (ofBytes x).shift start := by
    simp [shift, ofBytes]
  rw [hshift] at h
  obtain ⟨us, ⟨rest, position, dataNext⟩, hus, rfl, hl⟩ := h.of_shift
  obtain ⟨rfl, -, rfl⟩ := Lexer.mk.inj hl
  -- nothing but the end of the stream is left
  have hnext := @next_plain [] [] [] .eof rfl rfl position
  have hscan : (Scan.ofLexer ⟨[], position, false⟩).tokens =
      .ok [⟨.eof, ⟨position, position⟩⟩] :=
    congrArg Scan.tokens (ofLexer_finish hnext rfl)
  exact ⟨us, _, tokens_of_reaches hus hscan, rfl, rfl⟩

/-- **Slices**: the bytes of some tokens in a row are read as these tokens. -/
theorem tokenize_slice {bytes : List UInt8} {before : List Token} {place : Span}
    (hbefore : (ofBytes bytes).Reaches before l) (h : l.Reaches ts l') (hplace : place.Covers ts)
    (hopens : OpensPlainly ts) (hcloses : ClosesPlainly ts) :
    ∃ us eof, PageContent.tokenize (place.slice bytes) = .ok (us ++ [eof]) ∧
      eof.lexeme = .eof ∧ ts = us.map (Relocation.shift place.start []).token := by
  obtain ⟨first, last, hfirst, hlast, rfl⟩ := hplace
  obtain ⟨rest, rfl⟩ : ∃ rest, ts = first :: rest := List.head?_eq_some_iff.mp hfirst
  obtain ⟨g, r, hrest, hstart, hreach⟩ := h.skip_gap (hopens.dataNext h)
  obtain ⟨x, rfl, hposition, hcut⟩ := hreach.cut hcloses
  -- the bytes from the start of the first token to the end of the last one
  have hstop : last.span.stop = l'.position := by
    obtain ⟨earlier, hts⟩ := List.getLast?_eq_some_iff.mp hlast
    obtain ⟨l₁, -, hnext⟩ := (hts ▸ h).of_concat
    exact (state_of_next hnext).1.symm
  have hslice : Span.slice ⟨first.span.start, last.span.stop⟩ bytes = x := by
    obtain ⟨b, hb, hl⟩ := exists_rest_of_reaches hbefore
    have hbytes : bytes = (b ++ g) ++ (x ++ l'.rest) := by
      rw [List.append_assoc, ← hrest]
      exact hb
    have hlength : (b ++ g).length = first.span.start := by
      rw [List.length_append, hstart, hl]
      simp [ofBytes]
    rw [hstop, hposition, ← hlength, hbytes]
    exact Span.slice_append (b ++ g) x l'.rest
  rw [hslice]
  exact hcut.tokenize

end Lexer

/-! ## Counting from the start of a node -/

namespace Span

/-- The range after `n` bytes have been taken away in front of it. -/
def back (n : Nat) (s : Span) : Span :=
  ⟨s.start - n, s.stop - n⟩

theorem back_join (n : Nat) (s s' : Span) : (s.join s').back n = (s.back n).join (s'.back n) := by
  simp [back, join, Nat.sub_min_sub_right, Nat.sub_max_sub_right]

theorem back_shift (n : Nat) (s : Span) : (s.shift n).back n = s := by
  simp [back, shift]

theorem shift_back {n : Nat} {s : Span} (hstart : n ≤ s.start) (hstop : n ≤ s.stop) :
    (s.back n).shift n = s := by
  simp [back, shift, Nat.sub_add_cancel, hstart, hstop]

end Span

/-- Everything lies `n` bytes further back. -/
def Relocation.back (n : Nat) : Relocation where
  span := Span.back n
  position p := p - n
  span_join := Span.back_join n
  before := []

theorem Relocation.production_node (f : Relocation) (n : Node) :
    (f.node n).production = n.production := by
  cases n <;> rfl

theorem Relocation.isFragment_node {f : Relocation} {n : Node} (h : n.IsFragment) :
    (f.node n).IsFragment := by
  cases n <;> exact h

theorem Relocation.map_back_shift (n : Nat) (before : List Node) (ts : List Token) :
    (ts.map (shift n before).token).map (back n).token = ts := by
  rw [List.map_map]
  apply List.map_id''
  intro t
  exact congrArg (Token.mk t.lexeme) (Span.back_shift n t.span)

namespace Node

mutual

/-- Further back and on again a tree is the same, if it does not reach the place that it
    is counted from. -/
theorem mapSpans_shift_back {k : Nat} (n : Node)
    (h : ∀ m ∈ n.subtrees, k ≤ m.span.start ∧ k ≤ m.span.stop) :
    (n.mapSpans (Span.back k)).mapSpans (Span.shift k) = n := by
  match n with
  | .invocation call =>
    obtain ⟨hstart, hstop⟩ := h _ List.mem_cons_self
    have hspan : (call.span.back k).shift k = call.span := Span.shift_back hstart hstop
    show Node.invocation { call with span := (call.span.back k).shift k } = _
    rw [hspan]
  | .group p cs s =>
    obtain ⟨hstart, hstop⟩ := h _ List.mem_cons_self
    have hspan : (s.back k).shift k = s := Span.shift_back hstart hstop
    have hcs := mapSpansAll_shift_back cs fun m hm => h m (List.mem_cons_of_mem _ hm)
    show Node.group p (mapSpansAll _ (mapSpansAll _ cs)) ((s.back k).shift k) = _
    rw [hcs, hspan]

theorem mapSpansAll_shift_back {k : Nat} (cs : List Node)
    (h : ∀ m ∈ subtreesAll cs, k ≤ m.span.start ∧ k ≤ m.span.stop) :
    mapSpansAll (Span.shift k) (mapSpansAll (Span.back k) cs) = cs := by
  match cs with
  | [] => rfl
  | c :: cs =>
    have hc := mapSpans_shift_back c fun m hm => h m (List.mem_append_left _ hm)
    have hcs := mapSpansAll_shift_back cs fun m hm => h m (List.mem_append_right _ hm)
    rw [mapSpansAll, mapSpansAll, hc, hcs]

end

end Node

/-- No part of a tree reaches back to what is in front of it. -/
theorem Grammar.start_le_of_mem_subtrees {d : Nat} {ts : List Token} {n m : Node}
    (hts : InOrder ts) (h : IsTree d ts n) (hm : m ∈ n.subtrees) :
    n.span.start ≤ m.span.start ∧ n.span.start ≤ m.span.stop := by
  have hcovers := covers_of_isTree n hts h
  obtain ⟨before, seg, after, hsplit, hseg⟩ := exists_isTree_of_mem n h hm
  have hstart := hcovers.start_le hts
  subst hsplit
  have hseg' := covers_of_isTree m hts.right.left hseg
  obtain ⟨first, hfirst, -, -, hplace, -⟩ := hseg'.exists_mem
  have hle := hstart first (List.mem_append_right before (List.mem_append_left after hfirst))
  have hforward := hseg'.start_le_stop hts.right.left
  omega

/-! ## Content streams -/

namespace ContentStream

variable {bytes : List UInt8} {s : ContentStream}

/-- **Fragments**: a fragment is read again from its own bytes, counted from its start. -/
theorem parseAs_slice (h : parse Profile.default.options bytes = .ok s) {n : Node}
    (hn : n ∈ s.root.subtrees) (hfragment : n.IsFragment) :
    ∃ m, Node.parseAs n.production (n.span.slice bytes) = .ok m ∧
      m.mapSpans (Span.shift n.span.start) = n := by
  obtain ⟨ts, eof, ns, htokens, hroot, hns⟩ := exists_trees_of_parse h
  have hts := (inOrder_of_tokenize htokens).1
  obtain ⟨l, -, hreach, -⟩ := Lexer.exists_reaches htokens
  rw [hroot] at hn
  obtain rfl | ⟨before, seg, after, rfl, hseg⟩ := exists_isTree_of_mem_root hns hn
  · exact absurd hfragment (by simp [Node.ofChildren, Node.IsFragment])
  obtain ⟨l₁, hbefore, hreach₁⟩ := hreach.of_append
  obtain ⟨l₂, hreach₂, -⟩ := hreach₁.of_append
  obtain ⟨hopens, hcloses⟩ := plain_of_isTree hseg hfragment
  have hcovers := covers_of_isTree n hts.right.left hseg
  obtain ⟨us, eof', hus, heof, hmap⟩ :=
    Lexer.tokenize_slice hbefore hreach₂ hcovers hopens hcloses
  -- the tokens of the slice are the fragment, further back
  have htree := (Relocation.back n.span.start).isTree_tokens hseg
  rw [hmap, Relocation.map_back_shift] at htree
  have hparse := Node.parseAs_of_isTree hus heof htree (Relocation.isFragment_node hfragment)
  rw [Relocation.production_node] at hparse
  exact ⟨_, hparse, Node.mapSpans_shift_back n fun m hm =>
    start_le_of_mem_subtrees hts.right.left hseg hm⟩

/-- **Locations**: in a stream that is accepted, each invocation goes from its first token
    to its operator, each group from the start of its first child to the end of its last,
    children come one after the other, and everything lies in the stream. Under the
    default options the fragments are read again from their own bytes. -/
theorem parse_locates {o : Options} (h : parse o bytes = .ok s) :
    (∃ segs eof, tokenize bytes = .ok (segs.flatten ++ [eof]) ∧
      List.Forall₂ Invocation.LiesAt s.invocations segs) ∧
    (∀ p cs place, .group p cs place ∈ s.root.subtrees →
      place.Encloses cs ∨ s.root = .group p cs place ∧ cs = [] ∧ place = ⟨0, 0⟩) ∧
    (∀ n ∈ s.root.subtrees, n.span.start ≤ n.span.stop ∧ n.span.stop ≤ bytes.length) ∧
    (o = Profile.default.options → ∀ n ∈ s.root.subtrees, n.IsFragment →
      ∃ m, Node.parseAs n.production (n.span.slice bytes) = .ok m ∧
        m.mapSpans (Span.shift n.span.start) = n) := by
  have hleaves : s.invocations = s.root.leaves := Node.invocations_eq_leaves s.root
  rw [hleaves]
  refine ⟨exists_segments_of_parse h, ?_, ?_, ?_⟩
  · intro p cs place hn
    exact encloses_of_mem_subtrees h hn
  · intro n hn
    exact span_of_mem_subtrees h hn
  · rintro rfl n hn hfragment
    exact parseAs_slice h hn hfragment

/-- A path after a blank, and a line width in a state block. -/
theorem parse_locates_path : ∃ s,
    parse Profile.default.options (Byte.ofChars " 0 0 m 9 9 l S q 5 w Q".toList) = .ok s ∧
    (∀ n ∈ s.root.subtrees, n.span.start ≤ n.span.stop ∧ n.span.stop ≤ 22) ∧
    ∀ n ∈ s.root.subtrees, n.IsFragment → ∃ m, Node.parseAs n.production
        (n.span.slice (Byte.ofChars " 0 0 m 9 9 l S q 5 w Q".toList)) = .ok m ∧
      m.mapSpans (Span.shift n.span.start) = n := by
  have hparse : (parse Profile.default.options
      (Byte.ofChars " 0 0 m 9 9 l S q 5 w Q".toList)).isOk = true := by
    decide +kernel
  match h : parse Profile.default.options (Byte.ofChars " 0 0 m 9 9 l S q 5 w Q".toList) with
  | .ok s =>
    obtain ⟨-, -, hinside, hagain⟩ := parse_locates h
    exact ⟨s, rfl, hinside, hagain rfl⟩
  | .error e =>
    rw [h] at hparse
    exact absurd hparse Bool.false_ne_true

end ContentStream

end PageContent
