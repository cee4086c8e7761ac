import PageContent.Proofs.Recognition
import PageContent.Proofs.Leaves
import PageContent.Report

/-! # Options as filters

    What the lenient profile accepts, other options accept or refuse as a whole:
    they never change a tree.

    * **Filters**: `Passes` says what the options ask of a tree, namely of the
      depth of its sections and containers, of its undefined operators, and of
      its state blocks.
    * **A derivation passes** the filters of the options it was made under.
    * **A derivation carries over** to all other options whose filters its tree
      passes.
-/

namespace PageContent

open Grammar

/-! ## Depth of operands -/

theorem depth_of_denotes {lexeme : Lexeme} {x : Operand} (h : lexeme.Denotes x) :
    x.depth = 0 := by
  cases h <;> rfl

mutual

/-- An operand is no deeper than the grammar allows. -/
theorem depth_le_of_isOperand {d : Nat} {ts : List Token} {x : Operand} {s : Span}
    (h : IsOperand d ts x s) : x.depth ≤ d := by
  match h with
  | @IsOperand.scalar _ t _ hx =>
    have hdepth := depth_of_denotes (Lexeme.denotes_of_scalar? hx)
    omega
  | .array ho hxs hc =>
    have hitems := depth_le_of_areOperands hxs
    exact Nat.succ_le_succ hitems
  | .dictionary ho hes hc =>
    have hentries := depth_le_of_areEntries hes
    exact Nat.succ_le_succ hentries

theorem depth_le_of_areOperands {d : Nat} {ts : List Token} {xs : List (Operand × Span)}
    (h : AreOperands d ts xs) : Operand.depthOfItems (xs.map (·.1)) ≤ d := by
  match h with
  | .nil => exact Nat.zero_le d
  | .cons hx hxs =>
    have hfirst := depth_le_of_isOperand hx
    have hothers := depth_le_of_areOperands hxs
    exact Nat.max_le.mpr ⟨hfirst, hothers⟩

theorem depth_le_of_areEntries {d : Nat} {ts : List Token} {es : List (String × Operand)}
    (h : AreEntries d ts es) : Operand.depthOfEntries es ≤ d := by
  match h with
  | .nil => exact Nat.zero_le d
  | .cons hk hx hes =>
    have hvalue := depth_le_of_isOperand hx
    have hothers := depth_le_of_areEntries hes
    exact Nat.max_le.mpr ⟨hvalue, hothers⟩

end

mutual

/-- An operand may be read under any limit that it keeps. -/
theorem isOperand_of_depth_le {d d' : Nat} {ts : List Token} {x : Operand} {s : Span}
    (h : IsOperand d ts x s) (hd : x.depth ≤ d') : IsOperand d' ts x s := by
  -- a container takes one level, so none is left for it when the limit is 0
  match h, d' with
  | .scalar hx, _ => exact IsOperand.scalar hx
  | .array ho hxs hc, 0 => exact absurd hd (by simp [Operand.depth])
  | .dictionary ho hes hc, 0 => exact absurd hd (by simp [Operand.depth])
  | .array ho hxs hc, d' + 1 =>
    have hitems := areOperands_of_depth_le hxs (Nat.le_of_succ_le_succ hd)
    exact IsOperand.array ho hitems hc
  | .dictionary ho hes hc, d' + 1 =>
    have hentries := areEntries_of_depth_le hes (Nat.le_of_succ_le_succ hd)
    exact IsOperand.dictionary ho hentries hc

theorem areOperands_of_depth_le {d d' : Nat} {ts : List Token} {xs : List (Operand × Span)}
    (h : AreOperands d ts xs) (hd : Operand.depthOfItems (xs.map (·.1)) ≤ d') :
    AreOperands d' ts xs := by
  match h with
  | .nil => exact AreOperands.nil
  | .cons hx hxs =>
    obtain ⟨hfirst, hothers⟩ := Nat.max_le.mp hd
    exact AreOperands.cons (isOperand_of_depth_le hx hfirst) (areOperands_of_depth_le hxs hothers)

theorem areEntries_of_depth_le {d d' : Nat} {ts : List Token} {es : List (String × Operand)}
    (h : AreEntries d ts es) (hd : Operand.depthOfEntries es ≤ d') : AreEntries d' ts es := by
  match h with
  | .nil => exact AreEntries.nil
  | .cons hk hx hes =>
    obtain ⟨hvalue, hothers⟩ := Nat.max_le.mp hd
    exact AreEntries.cons hk (isOperand_of_depth_le hx hvalue)
      (areEntries_of_depth_le hes hothers)

end

theorem depthOfItems_le_iff {xs : List Operand} {d : Nat} :
    Operand.depthOfItems xs ≤ d ↔ ∀ x ∈ xs, x.depth ≤ d := by
  induction xs with
  | nil => simp [Operand.depthOfItems]
  | cons x xs ih => rw [Operand.depthOfItems, Nat.max_le, ih, List.forall_mem_cons]

/-! ## What options ask of a tree -/

namespace Node

mutual

/-- How many sections lie within each other. -/
def nesting : Node → Nat
  | invocation _ => 0
  | group p cs _ => nestingAll cs + (if Statistics.isNesting p then 1 else 0)

def nestingAll : List Node → Nat
  | [] => 0
  | c :: cs => max c.nesting (nestingAll cs)

end

mutual

/-- A tree and the trees in it. -/
def subtrees : Node → List Node
  | invocation call => [invocation call]
  | group p cs s => group p cs s :: subtreesAll cs

def subtreesAll : List Node → List Node
  | [] => []
  | c :: cs => c.subtrees ++ subtreesAll cs

end

/-- The last of the nodes is the operator `Q`. -/
def EndWithRestore (cs : List Node) : Prop :=
  ∃ call, cs.getLast? = some (.invocation call) ∧ call.keyword = "Q"

end Node

/-- What options ask of nodes, where `room` sections may be within each other. -/
structure Passes (o : Options) (room : Nat) (ns : List Node) : Prop where
  nesting : Node.nestingAll ns ≤ room
  operands : ∀ call ∈ Node.leavesAll ns, ∀ x ∈ call.operands, x.depth ≤ o.nestingLimit
  known : o.undefinedOperators ∨
    ∀ call ∈ Node.leavesAll ns, call.production ≠ .unknownOperator
  restored : o.unclosedStates ∨
    ∀ cs s, .group .graphicsStateBlock cs s ∈ Node.subtreesAll ns → Node.EndWithRestore cs

/-- What options ask of an invocation. -/
structure Invocation.Passes (o : Options) (call : Invocation) : Prop where
  operands : ∀ x ∈ call.operands, x.depth ≤ o.nestingLimit
  known : o.undefinedOperators ∨ call.production ≠ .unknownOperator

namespace Passes

variable {o : Options} {room : Nat} {n : Node} {ns ms : List Node} {call : Invocation}

theorem nil : Passes o room [] := by
  refine ⟨Nat.zero_le room, ?_, .inr ?_, .inr ?_⟩
  · simp [Node.leavesAll]
  · simp [Node.leavesAll]
  · simp [Node.subtreesAll]

theorem cons_iff : Passes o room (n :: ns) ↔ Passes o room [n] ∧ Passes o room ns := by
  have hnesting : Node.nestingAll (n :: ns) ≤ room ↔
      Node.nestingAll [n] ≤ room ∧ Node.nestingAll ns ≤ room := by
    simp only [Node.nestingAll, Nat.max_le, Nat.zero_le, and_true]
  have hleaves : ∀ P : Invocation → Prop, (∀ call ∈ Node.leavesAll (n :: ns), P call) ↔
      (∀ call ∈ Node.leavesAll [n], P call) ∧ ∀ call ∈ Node.leavesAll ns, P call := by
    intro P
    simp [Node.leavesAll, or_imp, forall_and]
  have hsubtrees : ∀ P : List Node → Prop,
      (∀ cs s, .group .graphicsStateBlock cs s ∈ Node.subtreesAll (n :: ns) → P cs) ↔
      (∀ cs s, .group .graphicsStateBlock cs s ∈ Node.subtreesAll [n] → P cs) ∧
        ∀ cs s, .group .graphicsStateBlock cs s ∈ Node.subtreesAll ns → P cs := by
    intro P
    simp [Node.subtreesAll, or_imp, forall_and]
  -- each filter divides along the list, the last two under their options
  constructor
  · intro h
    have hoperands := (hleaves _).mp h.operands
    have hknown := h.known.imp_right (hleaves _).mp
    have hrestored := h.restored.imp_right (hsubtrees _).mp
    rw [or_and_left] at hknown hrestored
    exact ⟨⟨(hnesting.mp h.nesting).1, hoperands.1, hknown.1, hrestored.1⟩,
      ⟨(hnesting.mp h.nesting).2, hoperands.2, hknown.2, hrestored.2⟩⟩
  · intro h
    obtain ⟨hn, hns⟩ := h
    refine ⟨hnesting.mpr ⟨hn.nesting, hns.nesting⟩,
      (hleaves _).mpr ⟨hn.operands, hns.operands⟩, ?_, ?_⟩
    · exact (or_and_left.mpr ⟨hn.known, hns.known⟩).imp_right (hleaves _).mpr
    · exact (or_and_left.mpr ⟨hn.restored, hns.restored⟩).imp_right (hsubtrees _).mpr

theorem append_iff : Passes o room (ns ++ ms) ↔ Passes o room ns ∧ Passes o room ms := by
  induction ns with
  | nil => simp [nil]
  | cons n ns ih =>
    rw [List.cons_append, cons_iff, ih, @cons_iff _ _ n ns, and_assoc]

theorem invocation_iff : Passes o room [.invocation call] ↔ call.Passes o := by
  constructor
  · intro h
    refine ⟨?_, ?_⟩
    · exact h.operands call (by simp [Node.leavesAll, Node.leaves])
    · exact h.known.imp_right fun h => h call (by simp [Node.leavesAll, Node.leaves])
  · intro h
    refine ⟨?_, ?_, ?_, .inr ?_⟩
    · simp [Node.nestingAll, Node.nesting]
    · simpa [Node.leavesAll, Node.leaves] using h.operands
    · simpa [Node.leavesAll, Node.leaves] using h.known
    · simp [Node.subtreesAll, Node.subtrees]

theorem invocations_iff {calls : List Invocation} :
    Passes o room (calls.map .invocation) ↔ ∀ call ∈ calls, call.Passes o := by
  induction calls with
  | nil => simp [nil]
  | cons call calls ih => rw [List.map_cons, cons_iff, invocation_iff, ih, List.forall_mem_cons]

/-- A group that is no section asks nothing of its own. -/
theorem group_iff {p : Production} {cs : List Node} (hp : Statistics.isNesting p = false) :
    Passes o room [.ofChildren p cs] ↔ Passes o room cs := by
  -- not a state block either, since these are sections
  have hstate : p ≠ .graphicsStateBlock := by
    intro h
    rw [h] at hp
    exact absurd hp (by decide)
  have hnesting : Node.nestingAll [.ofChildren p cs] = Node.nestingAll cs := by
    simp [Node.nestingAll, Node.ofChildren, Node.nesting, hp]
  have hleaves : Node.leavesAll [.ofChildren p cs] = Node.leavesAll cs := by
    simp [Node.leavesAll, Node.leaves_ofChildren]
  have hsubtrees : ∀ ds s, .group .graphicsStateBlock ds s ∈ Node.subtreesAll [.ofChildren p cs] ↔
      .group .graphicsStateBlock ds s ∈ Node.subtreesAll cs := by
    intro ds s
    simp [Node.subtreesAll, Node.ofChildren, Node.subtrees, hstate.symm]
  constructor
  · intro h
    refine ⟨hnesting ▸ h.nesting, hleaves ▸ h.operands, hleaves ▸ h.known, ?_⟩
    exact h.restored.imp_right fun h ds s hds => h ds s ((hsubtrees ds s).mpr hds)
  · intro h
    refine ⟨hnesting ▸ h.nesting, hleaves ▸ h.operands, hleaves ▸ h.known, ?_⟩
    exact h.restored.imp_right fun h ds s hds => h ds s ((hsubtrees ds s).mp hds)

/-- The state blocks in a section are those in its children, and the section if it is
    one itself. -/
theorem forall_stateBlocks_section_iff (s : Section) (cs : List Node) (P : List Node → Prop) :
    (∀ ds t, .group .graphicsStateBlock ds t ∈ Node.subtreesAll [.ofChildren s.production cs] →
      P ds) ↔
    (s = .stateBlock → P cs) ∧
      ∀ ds t, .group .graphicsStateBlock ds t ∈ Node.subtreesAll cs → P ds := by
  -- the section itself is the only tree that its children do not have
  have hmem : ∀ ds t,
      .group .graphicsStateBlock ds t ∈ Node.subtreesAll [.ofChildren s.production cs] ↔
        (s = .stateBlock ∧ ds = cs ∧ t = Span.ofRun (cs.map Node.span)) ∨
          .group .graphicsStateBlock ds t ∈ Node.subtreesAll cs := by
    have hs : Production.graphicsStateBlock = s.production ↔ s = .stateBlock := by
      cases s <;> simp [Section.production]
    intro ds t
    simp [Node.subtreesAll, Node.ofChildren, Node.subtrees, hs]
  constructor
  · intro h
    exact ⟨fun hs => h cs _ ((hmem _ _).mpr (.inl ⟨hs, rfl, rfl⟩)),
      fun ds t hds => h ds t ((hmem _ _).mpr (.inr hds))⟩
  · intro h ds t hds
    rcases (hmem ds t).mp hds with ⟨hs, rfl, -⟩ | hds
    · exact h.1 hs
    · exact h.2 ds t hds

/-- A section takes up room, and a state block must be closed. -/
theorem section_iff {s : Section} {cs : List Node} :
    Passes o room [.ofChildren s.production cs] ↔
      0 < room ∧ Passes o (room - 1) cs ∧
        (s = .stateBlock → o.unclosedStates ∨ Node.EndWithRestore cs) := by
  have hnesting : Node.nestingAll [.ofChildren s.production cs] = Node.nestingAll cs + 1 := by
    cases s <;> simp [Node.nestingAll, Node.ofChildren, Node.nesting, Section.production,
      Statistics.isNesting]
  have hleaves : Node.leavesAll [.ofChildren s.production cs] = Node.leavesAll cs := by
    simp [Node.leavesAll, Node.leaves_ofChildren]
  have hsubtrees := forall_stateBlocks_section_iff s cs
  constructor
  · intro h
    have hroom := h.nesting
    rw [hnesting] at hroom
    have hrestored := h.restored.imp_right (hsubtrees _).mp
    rw [or_and_left] at hrestored
    refine ⟨by omega, ⟨by omega, hleaves ▸ h.operands, hleaves ▸ h.known, hrestored.2⟩, ?_⟩
    intro hs
    exact hrestored.1.imp_right fun h => h hs
  · intro h
    obtain ⟨hroom, hcs, hstate⟩ := h
    refine ⟨?_, hleaves ▸ hcs.operands, hleaves ▸ hcs.known, ?_⟩
    · have := hcs.nesting
      rw [hnesting]
      omega
    · refine (or_and_left.mpr ⟨?_, hcs.restored⟩).imp_right (hsubtrees _).mpr
      -- where unclosed blocks are tolerated nothing is asked of this one
      by_cases ho : o.unclosedStates = true
      · exact .inl ho
      · exact .inr fun hs => (hstate hs).resolve_left ho

end Passes

/-! ## Derivations pass their own filters -/

namespace Grammar

variable {o o' : Options} {ts rest : List Token} {call : Invocation}

/-- Operators of the catalog do not count as undefined. -/
theorem production_ne_of_lookup? {keyword : String} {op : Operator}
    (h : Operator.lookup? keyword = some op) : op.production ≠ .unknownOperator := by
  have hall : ∀ op ∈ Operator.catalog, op.production ≠ .unknownOperator := by decide +kernel
  exact hall op (Operator.mem_catalog_of_lookup? h)

theorem passes_of_areOperands {pending : List Token} {operands : List (Operand × Span)}
    (h : AreOperands o.nestingLimit pending operands) :
    ∀ x ∈ operands.map (·.1), x.depth ≤ o.nestingLimit :=
  depthOfItems_le_iff.mp (depth_le_of_areOperands h)

theorem passes_of_isCall {op : Operator} (h : IsCall o.nestingLimit op ts rest call) :
    call.Passes o := by
  cases h with
  | mk hpending ht hop hfits =>
    exact ⟨passes_of_areOperands hpending, .inr (production_ne_of_lookup? hop)⟩

theorem passes_of_isPaint (h : IsPaint o.nestingLimit ts rest call) : call.Passes o := by
  obtain ⟨hcall, -⟩ := h
  exact passes_of_isCall hcall

theorem passes_of_isCallOf {p : Production} (h : IsCallOf o.nestingLimit p ts rest call) :
    call.Passes o := by
  obtain ⟨hcall, -⟩ := h
  exact passes_of_isCall hcall

theorem passes_of_isUncheckedCall (ho : o.undefinedOperators)
    (h : IsUncheckedCall o.nestingLimit ts rest call) : call.Passes o := by
  cases h with
  | mk hpending ht => exact ⟨passes_of_areOperands hpending, .inl ho⟩

theorem passes_of_areDrawn {calls : List Invocation}
    (h : AreDrawn o.nestingLimit ts rest calls) : ∀ call ∈ calls, call.Passes o := by
  induction h with
  | nil => simp
  | cons hcall hop hcalls ih => exact List.forall_mem_cons.mpr ⟨passes_of_isCall hcall, ih⟩

theorem passes_of_isClip {clip : Option Invocation} (h : IsClip o.nestingLimit ts rest clip) :
    ∀ call ∈ clip.toList, call.Passes o := by
  cases h with
  | none => simp
  | some hcall hop => simpa using passes_of_isCall hcall

/-- The operator that closes a state block is `Q`. -/
theorem keyword_of_isCallOf_restoreState {d : Nat} (h : IsCallOf d .restoreState ts rest call) :
    call.keyword = "Q" := by
  obtain ⟨hcall, hp⟩ := h
  cases hcall with
  | mk hpending ht hop hfits =>
    have hall : ∀ op ∈ Operator.catalog, op.production = .restoreState → op.keyword = "Q" := by
      decide +kernel
    rw [← Operator.keyword_of_lookup? hop]
    exact hall _ (Operator.mem_catalog_of_lookup? hop) hp

theorem passes_pathNode_iff {room : Nat} {drawn : List Invocation} {clip : Option Invocation}
    {paint : Invocation} :
    Passes o room [pathNode drawn clip paint] ↔
      (∀ call ∈ drawn, call.Passes o) ∧ (∀ call ∈ clip.toList, call.Passes o) ∧
        paint.Passes o := by
  unfold pathNode
  rw [Passes.group_iff rfl, Passes.cons_iff, Passes.group_iff rfl, Passes.invocations_iff,
    Passes.invocations_iff, List.forall_mem_append]
  simp

/-- A section with the room that its setting gives it. -/
theorem passes_section_iff {w : Setting} {s : Section} {ns : List Node} {opening : Invocation}
    {others : List Node} :
    Passes o w.room [.ofChildren s.production (.invocation opening :: ns ++ others)] ↔
      0 < w.room ∧ opening.Passes o ∧ Passes o (w.inside s).room ns ∧
        Passes o (w.inside s).room others ∧
        (s = .stateBlock → o.unclosedStates ∨
          Node.EndWithRestore (.invocation opening :: ns ++ others)) := by
  have hinside : (w.inside s).room = w.room - 1 := by
    cases s <;> rfl
  rw [Passes.section_iff, hinside, Passes.append_iff, Passes.cons_iff, Passes.invocation_iff]
  simp only [and_assoc]

mutual

/-- An item passes the filters of the options it was read under. -/
theorem passes_of_isItem {w : Setting} {glyph : Bool} {ts rest : List Token} {n : Node}
    (h : IsItem o w glyph ts rest n) : Passes o w.room [n] := by
  match h with
  | .single hcall hop => exact Passes.invocation_iff.mpr (passes_of_isCall hcall)
  | .undefined hcall hop hw ho =>
    exact Passes.invocation_iff.mpr (passes_of_isUncheckedCall ho hcall)
  | .path hdrawn hne hclip hpaint hw =>
    exact passes_pathNode_iff.mpr
      ⟨passes_of_areDrawn hdrawn, passes_of_isClip hclip, passes_of_isPaint hpaint⟩
  | .image hbegin hdata hfin hw =>
    rw [Passes.group_iff rfl, Passes.invocations_iff]
    simp [passes_of_isCallOf hbegin, passes_of_isCallOf hdata, passes_of_isCallOf hfin]
  | .closed hw hopening hns hclosing =>
    have hitems := passes_of_areItems hns
    refine passes_section_iff.mpr ⟨hw.1, passes_of_isCallOf hopening, hitems,
      Passes.invocation_iff.mpr (passes_of_isCallOf hclosing), ?_⟩
    intro hs
    subst hs
    -- a closed state block ends with its `Q`
    refine .inr ⟨_, List.getLast?_concat, keyword_of_isCallOf_restoreState hclosing⟩
  | .unclosed ho hw hopening hns =>
    have hitems := passes_of_areItems hns
    have hsection := (passes_section_iff (s := .stateBlock)).mpr
      ⟨hw.1, passes_of_isCallOf hopening, hitems, Passes.nil, fun _ => .inl ho⟩
    rw [List.append_nil] at hsection
    exact hsection

theorem passes_of_areItems {w : Setting} {glyph : Bool} {ts rest : List Token} {ns : List Node}
    (h : AreItems o w glyph ts rest ns) : Passes o w.room ns := by
  match h with
  | .nil => exact Passes.nil
  | .cons hn hns =>
    have hitem := passes_of_isItem hn
    have hitems := passes_of_areItems hns
    exact Passes.cons_iff.mpr ⟨hitem, hitems⟩

end

/-! ## Derivations carry over to other options -/

theorem isCall_of_passes {op : Operator} (h : IsCall o.nestingLimit op ts rest call)
    (hp : call.Passes o') : IsCall o'.nestingLimit op ts rest call := by
  cases h with
  | mk hpending ht hop hfits =>
    have hdepth := depthOfItems_le_iff.mpr hp.operands
    exact IsCall.mk (areOperands_of_depth_le hpending hdepth) ht hop hfits

theorem isCallOf_of_passes {p : Production} (h : IsCallOf o.nestingLimit p ts rest call)
    (hp : call.Passes o') : IsCallOf o'.nestingLimit p ts rest call := by
  obtain ⟨hcall, hop⟩ := h
  exact IsCallOf.mk (isCall_of_passes hcall hp) hop

theorem isPaint_of_passes (h : IsPaint o.nestingLimit ts rest call) (hp : call.Passes o') :
    IsPaint o'.nestingLimit ts rest call := by
  obtain ⟨hcall, hop⟩ := h
  exact IsPaint.mk (isCall_of_passes hcall hp) hop

theorem isUncheckedCall_of_passes (h : IsUncheckedCall o.nestingLimit ts rest call)
    (hp : call.Passes o') :
    IsUncheckedCall o'.nestingLimit ts rest call ∧ o'.undefinedOperators = true := by
  cases h with
  | mk hpending ht =>
    have hdepth := depthOfItems_le_iff.mpr hp.operands
    -- the invocation has the production of undefined operators, so they are tolerated
    have hknown := hp.known.resolve_right (by simp)
    exact ⟨IsUncheckedCall.mk (areOperands_of_depth_le hpending hdepth) ht, hknown⟩

theorem areDrawn_of_passes {calls : List Invocation}
    (h : AreDrawn o.nestingLimit ts rest calls) (hp : ∀ call ∈ calls, call.Passes o') :
    AreDrawn o'.nestingLimit ts rest calls := by
  induction h with
  | nil => exact AreDrawn.nil
  | cons hcall hop hcalls ih =>
    obtain ⟨hfirst, hothers⟩ := List.forall_mem_cons.mp hp
    exact AreDrawn.cons (isCall_of_passes hcall hfirst) hop (ih hothers)

theorem isClip_of_passes {clip : Option Invocation} (h : IsClip o.nestingLimit ts rest clip)
    (hp : ∀ call ∈ clip.toList, call.Passes o') : IsClip o'.nestingLimit ts rest clip := by
  cases h with
  | none => exact IsClip.none
  | some hcall hop => exact IsClip.some (isCall_of_passes hcall (hp _ (by simp))) hop

theorem lookup?_restore :
    Operator.lookup? "Q" = some ⟨"Q", .specialGraphicsState, .restoreState, .fixed []⟩ := by
  decide +kernel

/-- No item is the operator `Q` by itself. -/
theorem keyword_ne_of_isItem {w : Setting} {glyph : Bool}
    (h : IsItem o w glyph ts rest (.invocation call)) : call.keyword ≠ "Q" := by
  intro hq
  -- only rules for single invocations give such a node; `Q` is no single operator, and
  -- it is no undefined one
  generalize hn : Node.invocation call = n at h
  cases h with
  | single hcall hop =>
    obtain rfl := Node.invocation.inj hn
    cases hcall with
    | mk hpending ht hlookup hfits =>
      dsimp only at hq
      rw [hq, lookup?_restore] at hlookup
      obtain rfl := Option.some.inj hlookup
      simp [isSingle] at hop
  | undefined hcall hop hw ho =>
    obtain rfl := Node.invocation.inj hn
    rw [hq] at hop
    exact absurd hop (by decide +kernel)
  | path hdrawn hne hclip hpaint hw => exact absurd hn (by simp [pathNode, Node.ofChildren])
  | image hbegin hdata hfin hw => exact absurd hn (by simp [Node.ofChildren])
  | closed hw hopening hns hclosing => exact absurd hn (by simp [Node.ofChildren])
  | unclosed ho hw hopening hns => exact absurd hn (by simp [Node.ofChildren])

theorem isItem_of_mem {w : Setting} {glyph : Bool} {ts rest : List Token} {ns : List Node}
    (h : AreItems o w glyph ts rest ns) :
    ∀ n ∈ ns, ∃ glyph us vs, IsItem o w glyph us vs n := by
  match h with
  | .nil => simp
  | .cons hn hns =>
    have hothers := isItem_of_mem hns
    exact List.forall_mem_cons.mpr ⟨⟨_, _, _, hn⟩, hothers⟩

/-- A state block without its closing operator does not end like one with it. -/
theorem not_endWithRestore {w : Setting} {glyph : Bool} {us : List Token} {ns : List Node}
    {opening : Invocation} (hopening : IsCallOf o.nestingLimit .saveState ts us opening)
    (hns : AreItems o w glyph us rest ns) :
    ¬ Node.EndWithRestore (.invocation opening :: ns) := by
  intro h
  obtain ⟨call, hlast, hkeyword⟩ := h
  -- the last node is the opening operator, or one of the items
  rcases List.mem_cons.mp (List.mem_of_getLast? hlast) with hfirst | hmem
  · obtain rfl := Node.invocation.inj hfirst
    obtain ⟨hcall, hp⟩ := hopening
    cases hcall with
    | mk hpending ht hop hfits =>
      dsimp only at hkeyword
      rw [hkeyword, lookup?_restore] at hop
      obtain rfl := Option.some.inj hop
      exact absurd hp (by decide)
  · obtain ⟨glyph, vs, ws, hitem⟩ := isItem_of_mem hns _ hmem
    exact keyword_ne_of_isItem hitem hkeyword

mutual

/-- An item may be read under all options whose filters it passes. -/
theorem isItem_of_passes {w w' : Setting} {glyph : Bool} {ts rest : List Token} {n : Node}
    (h : IsItem o w glyph ts rest n) (hlevel : w'.level = w.level)
    (htolerant : w'.tolerant = w.tolerant) (hp : Passes o' w'.room [n]) :
    IsItem o' w' glyph ts rest n := by
  match h with
  | .single hcall hop =>
    rw [← hlevel] at hop
    exact IsItem.single (isCall_of_passes hcall (Passes.invocation_iff.mp hp)) hop
  | .undefined hcall hop hw ho =>
    obtain ⟨hcall', ho'⟩ := isUncheckedCall_of_passes hcall (Passes.invocation_iff.mp hp)
    exact IsItem.undefined hcall' hop (htolerant.trans hw) ho'
  | .path hdrawn hne hclip hpaint hw =>
    obtain ⟨hpdrawn, hpclip, hppaint⟩ := passes_pathNode_iff.mp hp
    exact IsItem.path (areDrawn_of_passes hdrawn hpdrawn) hne (isClip_of_passes hclip hpclip)
      (isPaint_of_passes hpaint hppaint) (hlevel.trans hw)
  | .image hbegin hdata hfin hw =>
    rw [Passes.group_iff rfl, Passes.invocations_iff] at hp
    exact IsItem.image (isCallOf_of_passes hbegin (hp _ (by simp)))
      (isCallOf_of_passes hdata (hp _ (by simp))) (isCallOf_of_passes hfin (hp _ (by simp)))
      (hlevel.trans hw)
  | @IsItem.closed _ _ _ s _ _ _ _ _ _ _ hw hopening hns hclosing =>
    obtain ⟨hroom, hpopening, hpns, hpclosing, -⟩ := passes_section_iff.mp hp
    have hlevel' : (w'.inside s).level = (w.inside s).level := by
      cases s <;> simp [Setting.inside, hlevel]
    have htolerant' : (w'.inside s).tolerant = (w.inside s).tolerant := by
      cases s <;> simp [Setting.inside, htolerant]
    have hns' := areItems_of_passes hns hlevel' htolerant' hpns
    exact IsItem.closed ⟨hroom, fun hs => hlevel.trans (hw.2 hs)⟩
      (isCallOf_of_passes hopening hpopening) hns'
      (isCallOf_of_passes hclosing (Passes.invocation_iff.mp hpclosing))
  | @IsItem.unclosed _ _ _ _ _ opening ns ho hw hopening hns =>
    have hp' : Passes o' w'.room
        [.ofChildren Section.stateBlock.production (.invocation opening :: ns ++ [])] := by
      rw [List.append_nil]
      exact hp
    obtain ⟨hroom, hpopening, hpns, -, hstate⟩ := passes_section_iff.mp hp'
    rw [List.append_nil] at hstate
    -- the block does not end with `Q`, so the filter can only be met by the option
    have ho' := (hstate rfl).resolve_right (not_endWithRestore hopening hns)
    have hinside : (w'.inside .stateBlock).level = (w.inside .stateBlock).level := rfl
    have hns' := areItems_of_passes hns hinside htolerant hpns
    exact IsItem.unclosed ho' ⟨hroom, fun hs => hlevel.trans (hw.2 hs)⟩
      (isCallOf_of_passes hopening hpopening) hns'

theorem areItems_of_passes {w w' : Setting} {glyph : Bool} {ts rest : List Token}
    {ns : List Node} (h : AreItems o w glyph ts rest ns) (hlevel : w'.level = w.level)
    (htolerant : w'.tolerant = w.tolerant) (hp : Passes o' w'.room ns) :
    AreItems o' w' glyph ts rest ns := by
  match h with
  | .nil => exact AreItems.nil
  | .cons hn hns =>
    obtain ⟨hfirst, hothers⟩ := Passes.cons_iff.mp hp
    have hn' := isItem_of_passes hn hlevel htolerant hfirst
    have hns' := areItems_of_passes hns hlevel htolerant hothers
    exact AreItems.cons hn' hns'

end

/-- A content stream passes the filters of its options. -/
theorem passes_of_isContent {n : Node} (h : IsContent o ts n) : Passes o o.nestingLimit [n] := by
  obtain ⟨ns, hns, rfl⟩ := h
  exact (Passes.group_iff rfl).mpr (passes_of_areItems hns)

/-- A content stream is one under all options whose filters it passes. -/
theorem isContent_of_passes {n : Node} (h : IsContent o ts n)
    (hp : Passes o' o'.nestingLimit [n]) : IsContent o' ts n := by
  obtain ⟨ns, hns, rfl⟩ := h
  exact ⟨ns, areItems_of_passes hns rfl rfl ((Passes.group_iff rfl).mp hp), rfl⟩

end Grammar

/-! ## Accepted streams -/

/-- Options that tolerate no less. -/
instance : LE Options :=
  ⟨fun o o' => o.maxNesting ≤ o'.maxNesting ∧
    (o.undefinedOperators → o'.undefinedOperators) ∧ (o.unclosedStates → o'.unclosedStates)⟩

theorem Passes.of_le {o o' : Options} {n : Node} (hle : o ≤ o')
    (h : Passes o o.nestingLimit [n]) : Passes o' o'.nestingLimit [n] := by
  obtain ⟨hnesting, hundefined, hunclosed⟩ := hle
  have hlimit : o.nestingLimit ≤ o'.nestingLimit := by
    unfold Options.nestingLimit
    omega
  refine ⟨Nat.le_trans h.nesting hlimit, ?_, h.known.imp_left hundefined,
    h.restored.imp_left hunclosed⟩
  intro call hcall x hx
  exact Nat.le_trans (h.operands call hcall x hx) hlimit

namespace ContentStream

variable {o o' : Options} {bytes : List UInt8} {t : ContentStream}

theorem passes_of_parse (h : parse o bytes = .ok t) : Passes o o.nestingLimit [t.root] := by
  obtain ⟨ts, eof, htokens, -⟩ := exists_tokens_of_parse h
  exact Grammar.passes_of_isContent ((parse_iff_of_tokenize htokens).mp h)

theorem parse_of_passes (h : parse o bytes = .ok t)
    (hp : Passes o' o'.nestingLimit [t.root]) : parse o' bytes = .ok t := by
  obtain ⟨ts, eof, htokens, -⟩ := exists_tokens_of_parse h
  have hcontent := (parse_iff_of_tokenize htokens).mp h
  exact (parse_iff_of_tokenize htokens).mpr (Grammar.isContent_of_passes hcontent hp)

theorem parse_of_le (hle : o ≤ o') (h : parse o bytes = .ok t) : parse o' bytes = .ok t :=
  parse_of_passes h ((passes_of_parse h).of_le hle)

/-- No options pass more than the lenient profile does. -/
theorem parse_lenient_of_parse (h : parse o bytes = .ok t) :
    parse Profile.lenient.options bytes = .ok t := by
  have hp := passes_of_parse h
  have hlimit : o.nestingLimit ≤ Profile.lenient.options.nestingLimit := Nat.min_le_right _ _
  refine parse_of_passes h ⟨Nat.le_trans hp.nesting hlimit, ?_, .inl rfl, .inl rfl⟩
  intro call hcall x hx
  exact Nat.le_trans (hp.operands call hcall x hx) hlimit

/-- **Options are filters**: a stream is accepted with a tree if and only if the
    lenient profile accepts it with the same tree, and the tree passes what the
    options ask. So options that tolerate more accept more, with the same trees,
    and each profile accepts what a stricter one does. -/
theorem parse_iff_lenient :
    (∀ (o : Options) (bytes : List UInt8) (t : ContentStream),
      parse o bytes = .ok t ↔
        parse Profile.lenient.options bytes = .ok t ∧
        t.root.nesting ≤ min o.maxNesting deepestNesting ∧
        (∀ call ∈ t.invocations, ∀ x ∈ call.operands,
          x.depth ≤ min o.maxNesting deepestNesting) ∧
        (o.undefinedOperators ∨ ∀ call ∈ t.invocations, call.production ≠ .unknownOperator) ∧
        (o.unclosedStates ∨ ∀ cs s, .group .graphicsStateBlock cs s ∈ t.root.subtrees →
          Node.EndWithRestore cs)) ∧
    (∀ (o o' : Options) (bytes : List UInt8) (t : ContentStream), o ≤ o' →
      parse o bytes = .ok t → parse o' bytes = .ok t) ∧
    (∀ (bytes : List UInt8) (t : ContentStream),
      (parse Profile.strict.options bytes = .ok t → parse Profile.default.options bytes = .ok t) ∧
      (parse Profile.default.options bytes = .ok t →
        parse Profile.lenient.options bytes = .ok t)) := by
  refine ⟨?_, fun o o' bytes t => parse_of_le, ?_⟩
  · intro o bytes t
    have hleaves : Node.leavesAll [t.root] = t.invocations := by
      simp [Node.leavesAll, invocations, Node.invocations_eq_leaves]
    have hsubtrees : Node.subtreesAll [t.root] = t.root.subtrees := by
      simp [Node.subtreesAll]
    have hnesting : Node.nestingAll [t.root] = t.root.nesting := by
      simp [Node.nestingAll]
    rw [← hleaves, ← hsubtrees, ← hnesting]
    constructor
    · intro h
      have hp := passes_of_parse h
      exact ⟨parse_lenient_of_parse h, hp.nesting, hp.operands, hp.known, hp.restored⟩
    · intro h
      obtain ⟨hlenient, hnesting, hoperands, hknown, hrestored⟩ := h
      exact parse_of_passes hlenient ⟨hnesting, hoperands, hknown, hrestored⟩
  · intro bytes t
    have hstrict : Profile.strict.options ≤ Profile.default.options :=
      ⟨by decide, by decide, by decide⟩
    exact ⟨parse_of_le hstrict, parse_lenient_of_parse⟩

end ContentStream

end PageContent
