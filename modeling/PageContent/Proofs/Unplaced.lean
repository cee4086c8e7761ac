import PageContent.Proofs.Recognition
import PageContent.Proofs.Leaves
import PageContent.Proofs.Spelling

/-! # Trees without places

    What the grammar says about tokens does not depend on where they lie.

    * **Unplaced** trees have all their spans taken away.
    * **Lexemes**: the tokens of a tree say what its calls say, in order.
    * **Transfer**: tokens that say the same are the same tree, places aside. A
      relation of the grammar takes its tokens from the front of a list, so what
      is left of the two lists says the same too.
-/

namespace PageContent

/-! ## Trees -/

/-- The call, wherever it lies. -/
def Invocation.unplaced (call : Invocation) : Invocation :=
  { call with span := ⟨0, 0⟩ }

namespace Node

mutual

/-- The tree, wherever its nodes lie. -/
def unplaced : Node → Node
  | invocation call => .invocation call.unplaced
  | group p cs _ => .group p (unplacedAll cs) ⟨0, 0⟩

def unplacedAll : List Node → List Node
  | [] => []
  | c :: cs => c.unplaced :: unplacedAll cs

end

theorem unplacedAll_eq_map (cs : List Node) : unplacedAll cs = cs.map unplaced := by
  induction cs with
  | nil => rfl
  | cons c cs ih => rw [unplacedAll, ih, List.map_cons]

theorem unplaced_ofChildren (p : Production) (cs : List Node) :
    (ofChildren p cs).unplaced = .group p (cs.map unplaced) ⟨0, 0⟩ := by
  rw [← unplacedAll_eq_map]
  rfl

theorem map_unplaced_invocations (calls : List Invocation) :
    (calls.map .invocation).map unplaced = (calls.map Invocation.unplaced).map .invocation := by
  rw [List.map_map, List.map_map]
  rfl

mutual

theorem leaves_unplaced (n : Node) : n.unplaced.leaves = n.leaves.map Invocation.unplaced := by
  match n with
  | .invocation call => rfl
  | .group p cs s => exact leavesAll_unplaced cs

theorem leavesAll_unplaced (cs : List Node) :
    leavesAll (unplacedAll cs) = (leavesAll cs).map Invocation.unplaced := by
  match cs with
  | [] => rfl
  | c :: cs =>
    rw [unplacedAll, leavesAll, leavesAll, leaves_unplaced c, leavesAll_unplaced cs,
      List.map_append]

end

theorem writeInvocations_unplaced (calls : List Invocation) :
    writeInvocations (calls.map Invocation.unplaced) = writeInvocations calls := by
  match calls with
  | [] => rfl
  | call :: calls =>
    rw [List.map_cons, Invocation.writeInvocations_cons, Invocation.writeInvocations_cons]
    unfold Invocation.writeSpaced
    rw [List.flatMap_map]
    rfl

/-- What is written for a tree does not depend on places. -/
theorem write_unplaced (n : Node) : n.unplaced.write = n.write := by
  unfold write
  rw [invocations_eq_leaves, invocations_eq_leaves, leaves_unplaced, writeInvocations_unplaced]

end Node

namespace Grammar

variable {o : Options} {d : Nat} {ts rest us : List Token} {t : Token} {op : Operator}
  {call : Invocation} {calls : List Invocation}

/-! ## Lexemes -/

mutual

/-- The tokens of an operand say the operand. -/
theorem lexemes_of_isOperand {d : Nat} {ts : List Token} {x : Operand} {s : Span}
    (h : IsOperand d ts x s) : ts.map (·.lexeme) = x.lexemes := by
  match h with
  | @IsOperand.scalar _ t _ hx =>
    have hdenotes := Lexeme.denotes_of_scalar? hx
    obtain ⟨lexeme, span⟩ := t
    rw [List.map_singleton]
    cases hdenotes <;> rfl
  | .array ho hxs hc =>
    have hitems := lexemes_of_areOperands hxs
    rw [← Operand.lexemesOfItems_eq] at hitems
    rw [List.cons_append, List.map_cons, List.map_append, List.map_singleton, ho, hc, hitems]
    rfl
  | .dictionary ho hes hc =>
    have hentries := lexemes_of_areEntries hes
    rw [List.cons_append, List.map_cons, List.map_append, List.map_singleton, ho, hc, hentries]
    rfl

theorem lexemes_of_areOperands {d : Nat} {ts : List Token} {xs : List (Operand × Span)}
    (h : AreOperands d ts xs) :
    ts.map (·.lexeme) = (xs.map (·.1)).flatMap Operand.lexemes := by
  match h with
  | .nil => rfl
  | .cons hx hxs =>
    rw [List.map_append, lexemes_of_isOperand hx, lexemes_of_areOperands hxs, List.map_cons,
      List.flatMap_cons]

theorem lexemes_of_areEntries {d : Nat} {ts : List Token} {es : List (String × Operand)}
    (h : AreEntries d ts es) : ts.map (·.lexeme) = Operand.lexemesOfEntries es := by
  match h with
  | .nil => rfl
  | .cons hk hx hes =>
    rw [List.cons_append, List.map_cons, List.map_append, hk, lexemes_of_isOperand hx,
      lexemes_of_areEntries hes]
    rfl

end

theorem lexemes_of_pending {pending : List Token} {xs : List (Operand × Span)}
    {keyword : String} (hpending : AreOperands d pending xs) (ht : t.lexeme = .operator keyword)
    (rest : List Token) :
    (pending ++ t :: rest).map (·.lexeme) =
      ((xs.map (·.1)).flatMap Operand.lexemes ++ [.operator keyword]) ++
        rest.map (·.lexeme) := by
  rw [List.map_append, List.map_cons, lexemes_of_areOperands hpending, ht, List.append_assoc]
  rfl

/-- The tokens of a call say the call. -/
theorem lexemes_of_isCall (h : IsCall d op ts rest call) :
    ts.map (·.lexeme) = call.lexemes ++ rest.map (·.lexeme) := by
  obtain ⟨hpending, ht⟩ := h
  exact lexemes_of_pending hpending ht rest

theorem lexemes_of_isUncheckedCall (h : IsUncheckedCall d ts rest call) :
    ts.map (·.lexeme) = call.lexemes ++ rest.map (·.lexeme) := by
  obtain ⟨hpending, ht⟩ := h
  exact lexemes_of_pending hpending ht rest

theorem lexemes_of_isPaint (h : IsPaint d ts rest call) :
    ts.map (·.lexeme) = call.lexemes ++ rest.map (·.lexeme) := by
  obtain ⟨hcall, -⟩ := h
  exact lexemes_of_isCall hcall

theorem lexemes_of_isCallOf {p : Production} (h : IsCallOf d p ts rest call) :
    ts.map (·.lexeme) = call.lexemes ++ rest.map (·.lexeme) := by
  obtain ⟨hcall, -⟩ := h
  exact lexemes_of_isCall hcall

theorem lexemes_of_areDrawn (h : AreDrawn d ts rest calls) :
    ts.map (·.lexeme) = calls.flatMap Invocation.lexemes ++ rest.map (·.lexeme) := by
  induction h with
  | nil => rfl
  | cons hcall hop hcalls ih =>
    rw [lexemes_of_isCall hcall, ih, List.flatMap_cons, List.append_assoc]

theorem lexemes_of_isClip {clip : Option Invocation} (h : IsClip d ts rest clip) :
    ts.map (·.lexeme) = clip.toList.flatMap Invocation.lexemes ++ rest.map (·.lexeme) := by
  cases h with
  | none => rfl
  | some hcall hop =>
    rw [lexemes_of_isCall hcall, Option.toList_some, List.flatMap_singleton]

mutual

/-- The tokens of an item say its calls, one after the other. -/
theorem lexemes_of_isItem {w : Setting} {glyph : Bool} {ts rest : List Token} {n : Node}
    (h : IsItem o w glyph ts rest n) :
    ts.map (·.lexeme) = n.leaves.flatMap Invocation.lexemes ++ rest.map (·.lexeme) := by
  match h with
  | .single hcall hop =>
    rw [lexemes_of_isCall hcall, Node.leaves, List.flatMap_singleton]
  | .undefined hcall hop hw ho =>
    rw [lexemes_of_isUncheckedCall hcall, Node.leaves, List.flatMap_singleton]
  | .path hdrawn hne hclip hpaint hw =>
    rw [lexemes_of_areDrawn hdrawn, lexemes_of_isClip hclip, lexemes_of_isPaint hpaint]
    simp [pathNode, Node.leaves_ofChildren, Node.leaves, Node.leavesAll, Node.leavesAll_append,
      Node.leavesAll_invocations]
  | .image hbegin hdata hfin hw =>
    rw [lexemes_of_isCallOf hbegin, lexemes_of_isCallOf hdata, lexemes_of_isCallOf hfin,
      Node.leaves_ofChildren, Node.leavesAll_invocations]
    simp
  | .closed hw hopening hns hclosing =>
    rw [lexemes_of_isCallOf hopening, lexemes_of_areItems hns, lexemes_of_isCallOf hclosing]
    simp [Node.leaves_ofChildren, Node.leavesAll, Node.leaves, Node.leavesAll_append]
  | .unclosed ho hw hopening hns =>
    rw [lexemes_of_isCallOf hopening, lexemes_of_areItems hns]
    simp [Node.leaves_ofChildren, Node.leavesAll, Node.leaves]

theorem lexemes_of_areItems {w : Setting} {glyph : Bool} {ts rest : List Token}
    {ns : List Node} (h : AreItems o w glyph ts rest ns) :
    ts.map (·.lexeme) =
      (Node.leavesAll ns).flatMap Invocation.lexemes ++ rest.map (·.lexeme) := by
  match h with
  | .nil => rfl
  | .cons hn hns =>
    rw [lexemes_of_isItem hn, lexemes_of_areItems hns, Node.leavesAll, List.flatMap_append,
      List.append_assoc]

end

/-- **Lexemes**: the tokens of a stream say its calls. -/
theorem lexemes_of_isContent {n : Node} (h : IsContent o ts n) :
    ts.map (·.lexeme) = n.leaves.flatMap Invocation.lexemes := by
  obtain ⟨ns, hns, rfl⟩ := h
  rw [lexemes_of_areItems hns, Node.leaves_ofChildren, List.map_nil, List.append_nil]

/-! ## Transfer -/

/-- Tokens that say the same, wherever they lie. -/
def SayTheSame (us ts : List Token) : Prop :=
  us.map (·.lexeme) = ts.map (·.lexeme)

namespace SayTheSame

theorem eq_nil (h : SayTheSame us []) : us = [] :=
  List.map_eq_nil_iff.mp h

theorem of_cons (h : SayTheSame us (t :: ts)) :
    ∃ u us', us = u :: us' ∧ u.lexeme = t.lexeme ∧ SayTheSame us' ts :=
  List.map_eq_cons_iff.mp h

theorem of_append (h : SayTheSame us (ts ++ rest)) :
    ∃ vs rest', us = vs ++ rest' ∧ SayTheSame vs ts ∧ SayTheSame rest' rest := by
  unfold SayTheSame at h
  rw [List.map_append] at h
  exact List.map_eq_append_iff.mp h

end SayTheSame

/-- A relation of the grammar holds of all tokens that say the same. What they are is
    the same too, up to `erase`. -/
def Transfers {α : Type} (R : List Token → List Token → α → Prop) (erase : α → α) : Prop :=
  ∀ ⦃ts rest : List Token⦄ ⦃a : α⦄, R ts rest a → ∀ ⦃us : List Token⦄, SayTheSame us ts →
    ∃ rest' a', R us rest' a' ∧ SayTheSame rest' rest ∧ erase a' = erase a

mutual

/-- An operand is the same operand elsewhere. -/
theorem exists_isOperand {d : Nat} {ts us : List Token} {x : Operand} {s : Span}
    (h : IsOperand d ts x s) (hus : SayTheSame us ts) : ∃ s', IsOperand d us x s' := by
  match h with
  | .scalar hx =>
    obtain ⟨u, us', rfl, hu, hnil⟩ := hus.of_cons
    rw [hnil.eq_nil]
    exact ⟨u.span, IsOperand.scalar (by rw [hu, hx])⟩
  | .array ho hxs hc =>
    obtain ⟨u, us', rfl, hu, hus'⟩ := hus.of_cons
    obtain ⟨vs, last, rfl, hvs, hlast⟩ := hus'.of_append
    obtain ⟨v, none, rfl, hv, hnil⟩ := hlast.of_cons
    obtain ⟨ys, hys, hvalues⟩ := exists_areOperands hxs hvs
    rw [hnil.eq_nil, ← hvalues]
    exact ⟨_, IsOperand.array (hu.trans ho) hys (hv.trans hc)⟩
  | .dictionary ho hes hc =>
    obtain ⟨u, us', rfl, hu, hus'⟩ := hus.of_cons
    obtain ⟨vs, last, rfl, hvs, hlast⟩ := hus'.of_append
    obtain ⟨v, none, rfl, hv, hnil⟩ := hlast.of_cons
    have hes' := areEntries_of_same hes hvs
    rw [hnil.eq_nil]
    exact ⟨_, IsOperand.dictionary (hu.trans ho) hes' (hv.trans hc)⟩

theorem exists_areOperands {d : Nat} {ts us : List Token} {xs : List (Operand × Span)}
    (h : AreOperands d ts xs) (hus : SayTheSame us ts) :
    ∃ ys, AreOperands d us ys ∧ ys.map (·.1) = xs.map (·.1) := by
  match h with
  | .nil =>
    rw [hus.eq_nil]
    exact ⟨[], AreOperands.nil, rfl⟩
  | .cons hx hxs =>
    obtain ⟨vs, ws, rfl, hvs, hws⟩ := hus.of_append
    obtain ⟨s', hx'⟩ := exists_isOperand hx hvs
    obtain ⟨ys, hys, hvalues⟩ := exists_areOperands hxs hws
    refine ⟨_, AreOperands.cons hx' hys, ?_⟩
    rw [List.map_cons, List.map_cons, hvalues]

theorem areEntries_of_same {d : Nat} {ts us : List Token} {es : List (String × Operand)}
    (h : AreEntries d ts es) (hus : SayTheSame us ts) : AreEntries d us es := by
  match h with
  | .nil =>
    rw [hus.eq_nil]
    exact AreEntries.nil
  | .cons hk hx hes =>
    obtain ⟨u, us', rfl, hu, hus'⟩ := hus.of_cons
    obtain ⟨vs, ws, rfl, hvs, hws⟩ := hus'.of_append
    obtain ⟨s', hx'⟩ := exists_isOperand hx hvs
    exact AreEntries.cons (hu.trans hk) hx' (areEntries_of_same hes hws)

end

/-- The operands in front of an operator, and the operator. -/
theorem exists_pending {pending : List Token} {xs : List (Operand × Span)}
    (hpending : AreOperands d pending xs) (hus : SayTheSame us (pending ++ t :: rest)) :
    ∃ pending' u rest' ys, us = pending' ++ u :: rest' ∧ AreOperands d pending' ys ∧
      ys.map (·.1) = xs.map (·.1) ∧ u.lexeme = t.lexeme ∧ SayTheSame rest' rest := by
  obtain ⟨pending', others, rfl, hsame, hothers⟩ := hus.of_append
  obtain ⟨u, rest', rfl, hu, hrest⟩ := hothers.of_cons
  obtain ⟨ys, hys, hvalues⟩ := exists_areOperands hpending hsame
  exact ⟨pending', u, rest', ys, rfl, hys, hvalues, hu, hrest⟩

theorem transfers_isCall : Transfers (IsCall d op) Invocation.unplaced := by
  intro ts rest call h us hus
  obtain ⟨hpending, ht, hop, hfits⟩ := h
  obtain ⟨pending', u, rest', ys, rfl, hys, hvalues, hu, hrest⟩ := exists_pending hpending hus
  rw [← hvalues] at hfits
  refine ⟨rest', _, IsCall.mk hys (hu.trans ht) hop hfits, hrest, ?_⟩
  simp only [Invocation.unplaced, hvalues]

theorem transfers_isUncheckedCall : Transfers (IsUncheckedCall d) Invocation.unplaced := by
  intro ts rest call h us hus
  obtain ⟨hpending, ht⟩ := h
  obtain ⟨pending', u, rest', ys, rfl, hys, hvalues, hu, hrest⟩ := exists_pending hpending hus
  refine ⟨rest', _, IsUncheckedCall.mk hys (hu.trans ht), hrest, ?_⟩
  simp only [Invocation.unplaced, hvalues]

theorem transfers_isPaint : Transfers (IsPaint d) Invocation.unplaced := by
  intro ts rest call h us hus
  obtain ⟨hcall, hop⟩ := h
  obtain ⟨rest', call', hcall', hrest, hsame⟩ := transfers_isCall hcall hus
  exact ⟨rest', call', IsPaint.mk hcall' hop, hrest, hsame⟩

theorem transfers_isCallOf {p : Production} : Transfers (IsCallOf d p) Invocation.unplaced := by
  intro ts rest call h us hus
  obtain ⟨hcall, hop⟩ := h
  obtain ⟨rest', call', hcall', hrest, hsame⟩ := transfers_isCall hcall hus
  exact ⟨rest', call', IsCallOf.mk hcall' hop, hrest, hsame⟩

theorem transfers_areDrawn : Transfers (AreDrawn d) (List.map Invocation.unplaced) := by
  intro ts rest calls h
  induction h with
  | nil => exact fun us hus => ⟨us, [], AreDrawn.nil, hus, rfl⟩
  | cons hcall hop hcalls ih =>
    intro us hus
    obtain ⟨rest', call', hcall', hrest, hsame⟩ := transfers_isCall hcall hus
    obtain ⟨rest'', calls', hcalls', hrest', hsame'⟩ := ih hrest
    refine ⟨rest'', call' :: calls', AreDrawn.cons hcall' hop hcalls', hrest', ?_⟩
    rw [List.map_cons, List.map_cons, hsame, hsame']

theorem transfers_isClip : Transfers (IsClip d) (Option.map Invocation.unplaced) := by
  intro ts rest clip h us hus
  cases h with
  | none => exact ⟨us, none, IsClip.none, hus, rfl⟩
  | some hcall hop =>
    obtain ⟨rest', call', hcall', hrest, hsame⟩ := transfers_isCall hcall hus
    exact ⟨rest', some call', IsClip.some hcall' hop, hrest, congrArg some hsame⟩

theorem unplaced_pathNode {drawn drawn' : List Invocation} {clip clip' : Option Invocation}
    {paint paint' : Invocation}
    (hdrawn : drawn'.map Invocation.unplaced = drawn.map Invocation.unplaced)
    (hclip : clip'.map Invocation.unplaced = clip.map Invocation.unplaced)
    (hpaint : paint'.unplaced = paint.unplaced) :
    (pathNode drawn' clip' paint').unplaced = (pathNode drawn clip paint).unplaced := by
  have hlist : clip'.toList.map Invocation.unplaced = clip.toList.map Invocation.unplaced := by
    rw [← Option.toList_map, ← Option.toList_map, hclip]
  unfold pathNode
  simp only [Node.unplaced_ofChildren, List.map_cons, Node.map_unplaced_invocations,
    List.map_append, List.map_nil, Node.unplaced, hdrawn, hlist, hpaint]

mutual

/-- An item is the same item elsewhere. -/
theorem exists_isItem {w : Setting} {glyph : Bool} {ts rest us : List Token} {n : Node}
    (h : IsItem o w glyph ts rest n) (hus : SayTheSame us ts) :
    ∃ rest' n', IsItem o w glyph us rest' n' ∧ SayTheSame rest' rest ∧
      n'.unplaced = n.unplaced := by
  match h with
  | .single hcall hop =>
    obtain ⟨rest', call', hcall', hrest, hsame⟩ := transfers_isCall hcall hus
    exact ⟨rest', _, IsItem.single hcall' hop, hrest, congrArg Node.invocation hsame⟩
  | .undefined hcall hop hw ho =>
    obtain ⟨rest', call', hcall', hrest, hsame⟩ := transfers_isUncheckedCall hcall hus
    have hkeyword := congrArg Invocation.keyword hsame
    -- the keyword is the same, so it is not in the catalog either
    have hop' := (congrArg Operator.lookup? hkeyword).trans hop
    exact ⟨rest', _, IsItem.undefined hcall' hop' hw ho, hrest, congrArg Node.invocation hsame⟩
  | .path hdrawn hne hclip hpaint hw =>
    obtain ⟨vs, drawn', hdrawn', hvs, hsame⟩ := transfers_areDrawn hdrawn hus
    obtain ⟨ws, clip', hclip', hws, hsame'⟩ := transfers_isClip hclip hvs
    obtain ⟨rest', paint', hpaint', hrest, hsame''⟩ := transfers_isPaint hpaint hws
    -- as many operators are drawn
    have hne' : drawn' ≠ [] := by
      intro hnil
      rw [hnil, List.map_nil] at hsame
      exact hne (List.map_eq_nil_iff.mp hsame.symm)
    exact ⟨rest', _, IsItem.path hdrawn' hne' hclip' hpaint' hw, hrest,
      unplaced_pathNode hsame hsame' hsame''⟩
  | .image hbegin hdata hfin hw =>
    obtain ⟨vs, begin', hbegin', hvs, hsame⟩ := transfers_isCallOf hbegin hus
    obtain ⟨ws, data', hdata', hws, hsame'⟩ := transfers_isCallOf hdata hvs
    obtain ⟨rest', fin', hfin', hrest, hsame''⟩ := transfers_isCallOf hfin hws
    refine ⟨rest', _, IsItem.image hbegin' hdata' hfin' hw, hrest, ?_⟩
    rw [Node.unplaced_ofChildren, Node.unplaced_ofChildren, Node.map_unplaced_invocations,
      Node.map_unplaced_invocations]
    simp only [List.map_cons, List.map_nil, hsame, hsame', hsame'']
  -- what is left after one part is what the next one takes its tokens from
  | .closed hw hopening hns hclosing =>
    obtain ⟨vs, opening', hopening', hvs, hsame⟩ := transfers_isCallOf hopening hus
    obtain ⟨ws, ns', hns', hws, hsame'⟩ := exists_areItems hns hvs
    obtain ⟨rest', closing', hclosing', hrest, hsame''⟩ := transfers_isCallOf hclosing hws
    refine ⟨rest', _, IsItem.closed hw hopening' hns' hclosing', hrest, ?_⟩
    simp only [Node.unplaced_ofChildren, List.map_append, List.map_cons, List.map_nil,
      Node.unplaced, hsame, hsame', hsame'']
  | .unclosed ho hw hopening hns =>
    obtain ⟨vs, opening', hopening', hvs, hsame⟩ := transfers_isCallOf hopening hus
    obtain ⟨ws, ns', hns', hws, hsame'⟩ := exists_areItems hns hvs
    -- no token is left after an unclosed block, and none is left here
    rw [hws.eq_nil] at hns'
    refine ⟨[], _, IsItem.unclosed ho hw hopening' hns', rfl, ?_⟩
    simp only [Node.unplaced_ofChildren, List.map_cons, Node.unplaced, hsame, hsame']

theorem exists_areItems {w : Setting} {glyph : Bool} {ts rest us : List Token}
    {ns : List Node} (h : AreItems o w glyph ts rest ns) (hus : SayTheSame us ts) :
    ∃ rest' ns', AreItems o w glyph us rest' ns' ∧ SayTheSame rest' rest ∧
      ns'.map Node.unplaced = ns.map Node.unplaced := by
  match h with
  | .nil => exact ⟨us, [], AreItems.nil, hus, rfl⟩
  | .cons hn hns =>
    obtain ⟨vs, n', hn', hvs, hsame⟩ := exists_isItem hn hus
    obtain ⟨rest', ns', hns', hrest, hsame'⟩ := exists_areItems hns hvs
    refine ⟨rest', n' :: ns', AreItems.cons hn' hns', hrest, ?_⟩
    rw [List.map_cons, List.map_cons, hsame, hsame']

end

/-- **Transfer**: tokens that say the same are the same stream, places aside. -/
theorem exists_isContent {n : Node} (h : IsContent o ts n) (hus : SayTheSame us ts) :
    ∃ n', IsContent o us n' ∧ n'.unplaced = n.unplaced := by
  obtain ⟨ns, hns, rfl⟩ := h
  obtain ⟨rest', ns', hns', hrest, hsame⟩ := exists_areItems hns hus
  rw [hrest.eq_nil] at hns'
  refine ⟨_, ⟨ns', hns', rfl⟩, ?_⟩
  rw [Node.unplaced_ofChildren, Node.unplaced_ofChildren, hsame]

end Grammar

end PageContent
