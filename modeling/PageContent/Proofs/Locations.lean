import PageContent.Proofs.Filtering
import PageContent.Proofs.Unplaced
import PageContent.Proofs.Calls
import Mathlib.Data.List.Forall2

/-! # Where nodes lie

    A tree lies where its tokens lie.

    * **Covers**: a span covers a run of tokens if it goes from the start of the first
      one to the end of the last. Spans that cover runs one after the other tile the
      tokens.
    * **Segments**: a relation of the grammar takes its tokens from the front of a list,
      and which ones these are does not depend on the rest.
    * **Trees without settings**: which tokens a node stands for, node by node. Every
      item is such a tree, and so is every node in it.
    * **Spans**: if tokens lie in order, a node covers the tokens that it stands for, and
      the children of a group tile those of the group. A call lies at its operands and
      its operator.
-/

namespace PageContent

/-! ## Tokens in order -/

/-- Every token ends where it starts or later, and before those that come after it. -/
structure InOrder (ts : List Token) : Prop where
  forward : ∀ t ∈ ts, t.span.start ≤ t.span.stop
  apart : ts.Pairwise fun t u => t.span.stop ≤ u.span.start

namespace InOrder

variable {ts us : List Token}

theorem nil : InOrder [] :=
  ⟨List.forall_mem_nil _, List.Pairwise.nil⟩

theorem left (h : InOrder (ts ++ us)) : InOrder ts :=
  ⟨fun t ht => h.forward t (List.mem_append_left _ ht), (List.pairwise_append.mp h.apart).1⟩

theorem right (h : InOrder (ts ++ us)) : InOrder us :=
  ⟨fun t ht => h.forward t (List.mem_append_right _ ht), (List.pairwise_append.mp h.apart).2.1⟩

theorem between (h : InOrder (ts ++ us)) {t u : Token} (ht : t ∈ ts) (hu : u ∈ us) :
    t.span.stop ≤ u.span.start :=
  (List.pairwise_append.mp h.apart).2.2 t ht u hu

end InOrder

/-- The lexer reads tokens in order. -/
theorem Lexer.Reaches.inOrder {l l' : Lexer} {ts : List Token} (h : l.Reaches ts l') :
    InOrder ts := by
  induction h with
  | refl => exact InOrder.nil
  | @step l l₁ l' t ts hnext hne hrest ih =>
    have hfirst := (Reaches.step hnext hne hrest).between t List.mem_cons_self
    refine ⟨List.forall_mem_cons.mpr ⟨hfirst.2.1, ih.forward⟩, List.Pairwise.cons ?_ ih.apart⟩
    intro u hu
    have hposition := (state_of_next hnext).1
    have hbetween := hrest.between u hu
    omega

/-! ## Spans of tokens -/

/-- The span goes from the start of the first token to the end of the last one. -/
def Span.Covers (s : Span) (ts : List Token) : Prop :=
  ∃ first last, ts.head? = some first ∧ ts.getLast? = some last ∧
    s = ⟨first.span.start, last.span.stop⟩

namespace Span.Covers

variable {ts us mid : List Token} {s s' : Span}

theorem token (t : Token) : t.span.Covers [t] :=
  ⟨t, t, rfl, rfl, rfl⟩

/-- A span that covers some tokens starts and ends with two of them. -/
theorem exists_mem (h : s.Covers ts) :
    ∃ first ∈ ts, ∃ last ∈ ts, s.start = first.span.start ∧ s.stop = last.span.stop := by
  obtain ⟨first, last, hfirst, hlast, rfl⟩ := h
  exact ⟨first, List.mem_of_mem_head? hfirst, last, List.mem_of_getLast? hlast, rfl, rfl⟩

/-- A span that covers some tokens starts in front of all of them. -/
theorem start_le (hts : InOrder ts) (h : s.Covers ts) : ∀ t ∈ ts, s.start ≤ t.span.start := by
  obtain ⟨first, last, hfirst, -, rfl⟩ := h
  obtain ⟨rest, rfl⟩ := List.head?_eq_some_iff.mp hfirst
  intro t ht
  rcases List.mem_cons.mp ht with rfl | hmem
  · exact Nat.le_refl _
  · have hforward := hts.forward first List.mem_cons_self
    have hapart := List.rel_of_pairwise_cons hts.apart hmem
    show first.span.start ≤ t.span.start
    omega

theorem start_le_stop (hts : InOrder ts) (h : s.Covers ts) : s.start ≤ s.stop := by
  obtain ⟨-, -, last, hlast, -, hstop⟩ := h.exists_mem
  have hstart := h.start_le hts last hlast
  have hforward := hts.forward last hlast
  omega

/-- The first and the last of three runs. -/
theorem join (hts : InOrder (ts ++ (mid ++ us))) (h : s.Covers ts) (h' : s'.Covers us) :
    (s.join s').Covers (ts ++ (mid ++ us)) := by
  obtain ⟨first, last, hfirst, hlast, rfl⟩ := h
  obtain ⟨first', last', hfirst', hlast', rfl⟩ := h'
  have hmem := List.mem_of_mem_head? hfirst
  have hmem' := List.mem_of_mem_head? hfirst'
  have hforward := hts.forward first (List.mem_append_left _ hmem)
  have hstart := hts.between hmem (List.mem_append_right mid hmem')
  have hstop := hts.between (List.mem_of_getLast? hlast)
    (List.mem_append_right mid (List.mem_of_getLast? hlast'))
  have hforward' := hts.right.right.forward last' (List.mem_of_getLast? hlast')
  refine ⟨first, last', ?_, ?_, ?_⟩
  · rw [List.head?_append, hfirst]
    rfl
  · rw [← List.append_assoc, List.getLast?_append, hlast']
    rfl
  · show Span.mk (min first.span.start first'.span.start) (max last.span.stop last'.span.stop) = _
    rw [Nat.min_eq_left (by omega), Nat.max_eq_right (by omega)]

/-- The first and the last of some tokens. -/
theorem ends {first last : Token} (hts : InOrder (first :: (mid ++ [last]))) :
    (first.span.join last.span).Covers (first :: (mid ++ [last])) := by
  have hts' : InOrder ([first] ++ (mid ++ [last])) := hts
  exact join hts' (token first) (token last)

end Span.Covers

/-- Spans that cover runs of tokens one after the other. -/
inductive Span.Tile : List Span → List Token → Prop where
  | nil : Tile [] []
  | cons {s : Span} {ss : List Span} {ts us : List Token} (hs : s.Covers ts) (hss : Tile ss us) :
      Tile (s :: ss) (ts ++ us)

namespace Span.Tile

variable {ts : List Token} {ss : List Span}

theorem exists_covers (h : Tile ss ts) {s : Span} (hs : s ∈ ss) :
    ∃ before seg after, ts = before ++ (seg ++ after) ∧ s.Covers seg := by
  induction h with
  | nil => exact absurd hs List.not_mem_nil
  | @cons s' ss ts us hs' hss ih =>
    rcases List.mem_cons.mp hs with rfl | hs
    · exact ⟨[], ts, us, rfl, hs'⟩
    · obtain ⟨before, seg, after, rfl, hseg⟩ := ih hs
      exact ⟨ts ++ before, seg, after, by simp, hseg⟩

theorem start_le_stop (hts : InOrder ts) (h : Tile ss ts) : ∀ s ∈ ss, s.start ≤ s.stop := by
  intro s hs
  obtain ⟨before, seg, after, rfl, hseg⟩ := h.exists_covers hs
  exact hseg.start_le_stop hts.right.left

/-- Each span ends before the next ones start. -/
theorem pairwise (hts : InOrder ts) (h : Tile ss ts) :
    ss.Pairwise fun s s' => s.stop ≤ s'.start := by
  induction h with
  | nil => exact List.Pairwise.nil
  | @cons s ss ts us hs hss ih =>
    refine List.Pairwise.cons ?_ (ih hts.right)
    intro s' hs'
    obtain ⟨-, -, last, hlast, -, hstop⟩ := hs.exists_mem
    obtain ⟨before, seg, after, rfl, hseg⟩ := hss.exists_covers hs'
    obtain ⟨first, hfirst, -, -, hstart, -⟩ := hseg.exists_mem
    have hbetween := hts.between hlast
      (List.mem_append_right before (List.mem_append_left after hfirst))
    omega

/-- The last span covers the last of the tokens. -/
theorem exists_covers_last (h : Tile ss ts) {last : Span} (hlast : ss.getLast? = some last) :
    ∃ before seg, ts = before ++ seg ∧ last.Covers seg := by
  induction h with
  | nil => exact absurd hlast (by simp)
  | @cons s ss ts us hs hss ih =>
    cases hss with
    | nil =>
      obtain rfl := Option.some.inj hlast
      exact ⟨[], ts, List.append_nil ts, hs⟩
    | @cons s' ss' ts' us' hs' hss' =>
      rw [List.getLast?_cons_cons] at hlast
      obtain ⟨before, seg, heq, hseg⟩ := ih hlast
      exact ⟨ts ++ before, seg, by rw [heq, List.append_assoc], hseg⟩

/-- The run of all spans is the first one joined with the last one. -/
theorem ofRun_cons (s : Span) {ss : List Span} {last : Span}
    (hlast : (s :: ss).getLast? = some last) : Span.ofRun (s :: ss) = s.join last := by
  show s.join (ss.getLastD s) = s.join last
  rw [List.getLast?_cons, Option.some.injEq] at hlast
  rw [List.getLastD_eq_getLast?, hlast]

/-- The run of all spans goes from the start of the first one to the end of the last. -/
theorem ofRun_eq (hts : InOrder ts) (h : Tile ss ts) {first last : Span}
    (hfirst : ss.head? = some first) (hlast : ss.getLast? = some last) :
    Span.ofRun ss = ⟨first.start, last.stop⟩ := by
  cases ss with
  | nil => exact absurd hfirst (by simp)
  | cons s ss =>
    obtain rfl := Option.some.inj hfirst
    have hforward := h.start_le_stop hts
    rw [ofRun_cons s hlast]
    rcases List.mem_cons.mp (List.mem_of_getLast? hlast) with rfl | hmem
    · exact Span.join_self last
    · have hfirst' := hforward s List.mem_cons_self
      have hlast' := hforward last (List.mem_cons_of_mem s hmem)
      have hapart := List.rel_of_pairwise_cons (h.pairwise hts) hmem
      show Span.mk (min s.start last.start) (max s.stop last.stop) = _
      rw [Nat.min_eq_left (by omega), Nat.max_eq_right (by omega)]

/-- The run of all spans covers all tokens. -/
theorem covers (hts : InOrder ts) (h : Tile ss ts) (hne : ss ≠ []) :
    (Span.ofRun ss).Covers ts := by
  cases h with
  | nil => exact absurd rfl hne
  | @cons s ss ts us hs hss =>
    cases hss with
    | nil =>
      have hlast : [s].getLast? = some s := rfl
      rw [List.append_nil, ofRun_cons s hlast, Span.join_self]
      exact hs
    | @cons s' ss' ts' us' hs' hss' =>
      have hlast := List.getLast?_eq_some_getLast (List.cons_ne_nil s' ss')
      obtain ⟨before, seg, heq, hseg⟩ := (Tile.cons hs' hss').exists_covers_last hlast
      rw [← List.getLast?_cons_cons] at hlast
      rw [ofRun_cons s hlast]
      rw [heq] at hts ⊢
      exact hs.join hts hseg

end Span.Tile

/-! ## Operands and calls -/

namespace Grammar

variable {d : Nat} {ts us rest : List Token}

theorem covers_of_isOperand {x : Operand} {s : Span} (hts : InOrder ts)
    (h : IsOperand d ts x s) : s.Covers ts := by
  cases h with
  | scalar hx => exact Span.Covers.token _
  | array ho hxs hc => exact Span.Covers.ends hts
  | dictionary ho hes hc => exact Span.Covers.ends hts

theorem tile_of_areOperands {xs : List (Operand × Span)} (hts : InOrder ts)
    (h : AreOperands d ts xs) : Span.Tile (xs.map (·.2)) ts := by
  induction xs generalizing ts with
  | nil =>
    cases h with
    | nil => exact Span.Tile.nil
  | cons x xs ih =>
    cases h with
    | cons hx hxs => exact Span.Tile.cons (covers_of_isOperand hts.left hx) (ih hts.right hxs)

/-- A call covers its operands and its operator. -/
theorem covers_callSpan {t : Token} {xs : List (Operand × Span)} (hts : InOrder (ts ++ [t]))
    (h : AreOperands d ts xs) : (callSpan xs t.span).Covers (ts ++ [t]) := by
  have htile := tile_of_areOperands hts.left h
  cases xs with
  | nil =>
    cases h with
    | nil => exact Span.Covers.token t
  | cons x xs =>
    cases htile with
    | cons hs hss =>
      rw [List.append_assoc] at hts ⊢
      exact hs.join hts (Span.Covers.token t)

/-! ## Segments -/

/-- The relation takes the tokens of the segment from the front of a list, whatever comes
    after them. -/
def Takes {α : Type} (R : List Token → List Token → α → Prop) (seg : List Token) (a : α) :
    Prop :=
  ∀ rest, R (seg ++ rest) rest a

/-- What the relation takes from the front of a list does not depend on the rest. -/
def IsLocal {α : Type} (R : List Token → List Token → α → Prop) : Prop :=
  ∀ ⦃ts rest : List Token⦄ ⦃a : α⦄, R ts rest a → ∃ seg, ts = seg ++ rest ∧ Takes R seg a

theorem isLocal_isCall {op : Operator} : IsLocal (IsCall d op) := by
  intro ts rest call h
  cases h with
  | @mk pending _ t keyword operands hpending ht hop hfits =>
    refine ⟨pending ++ [t], (List.append_assoc pending [t] rest).symm, ?_⟩
    intro rest'
    rw [List.append_assoc]
    exact IsCall.mk hpending ht hop hfits

theorem isLocal_isUncheckedCall : IsLocal (IsUncheckedCall d) := by
  intro ts rest call h
  cases h with
  | @mk pending _ t keyword operands hpending ht =>
    refine ⟨pending ++ [t], (List.append_assoc pending [t] rest).symm, ?_⟩
    intro rest'
    rw [List.append_assoc]
    exact IsUncheckedCall.mk hpending ht

theorem isLocal_isCallOf {p : Production} : IsLocal (IsCallOf d p) := by
  intro ts rest call h
  obtain ⟨hcall, hop⟩ := h
  obtain ⟨seg, hts, hseg⟩ := isLocal_isCall hcall
  exact ⟨seg, hts, fun rest' => IsCallOf.mk (hseg rest') hop⟩

theorem isLocal_isPaint : IsLocal (IsPaint d) := by
  intro ts rest call h
  obtain ⟨hcall, hop⟩ := h
  obtain ⟨seg, hts, hseg⟩ := isLocal_isCall hcall
  exact ⟨seg, hts, fun rest' => IsPaint.mk (hseg rest') hop⟩

theorem isLocal_isClip : IsLocal (IsClip d) := by
  intro ts rest clip h
  cases h with
  | none => exact ⟨[], rfl, fun rest' => IsClip.none⟩
  | some hcall hop =>
    obtain ⟨seg, hts, hseg⟩ := isLocal_isCall hcall
    exact ⟨seg, hts, fun rest' => IsClip.some (hseg rest') hop⟩

theorem isLocal_areDrawn : IsLocal (AreDrawn d) := by
  intro ts rest calls h
  induction h with
  | nil => exact ⟨[], rfl, fun rest' => AreDrawn.nil⟩
  | cons hcall hop hcalls ih =>
    obtain ⟨seg, hts, hseg⟩ := isLocal_isCall hcall
    obtain ⟨segs, hus, hsegs⟩ := ih
    refine ⟨seg ++ segs, by rw [hts, hus, List.append_assoc], ?_⟩
    intro rest'
    rw [List.append_assoc]
    exact AreDrawn.cons (hseg (segs ++ rest')) hop (hsegs rest')

/-! ## Trees without settings -/

mutual

/-- `IsTree d ts n`: the tokens `ts`, all of them, are the node `n`. What it stands in is
    left open. -/
inductive IsTree (d : Nat) : List Token → Node → Prop where
  | known {op : Operator} {ts : List Token} {call : Invocation}
      (hcall : Takes (IsCall d op) ts call) : IsTree d ts (.invocation call)
  | undefined {ts : List Token} {call : Invocation}
      (hcall : Takes (IsUncheckedCall d) ts call) (hop : Operator.lookup? call.keyword = none) :
      IsTree d ts (.invocation call)
  | construction {ts : List Token} {drawn : List Invocation}
      (hdrawn : Takes (AreDrawn d) ts drawn) (hne : drawn ≠ []) :
      IsTree d ts (.ofChildren .pathConstruction (drawn.map .invocation))
  | path {ts us vs : List Token} {drawn : List Invocation} {clip : Option Invocation}
      {paint : Invocation}
      (hdrawn : Takes (AreDrawn d) ts drawn) (hne : drawn ≠ [])
      (hclip : Takes (IsClip d) us clip) (hpaint : Takes (IsPaint d) vs paint) :
      IsTree d (ts ++ (us ++ vs)) (pathNode drawn clip paint)
  | image {ts us vs : List Token} {begin data fin : Invocation}
      (hbegin : Takes (IsCallOf d .beginInlineImage) ts begin)
      (hdata : Takes (IsCallOf d .inlineImageData) us data)
      (hfin : Takes (IsCallOf d .endInlineImage) vs fin) :
      IsTree d (ts ++ (us ++ vs)) (.ofChildren .inlineImage ([begin, data, fin].map .invocation))
  | within {s : Section} {ts : List Token} {cs : List Node} (hcs : AreTrees d ts cs)
      (hne : cs ≠ []) : IsTree d ts (.ofChildren s.production cs)

/-- Trees one after the other. -/
inductive AreTrees (d : Nat) : List Token → List Node → Prop where
  | nil : AreTrees d [] []
  | cons {ts us : List Token} {n : Node} {ns : List Node}
      (hn : IsTree d ts n) (hns : AreTrees d us ns) : AreTrees d (ts ++ us) (n :: ns)

end

theorem AreTrees.append {ns ms : List Node} (h : AreTrees d ts ns) (h' : AreTrees d us ms) :
    AreTrees d (ts ++ us) (ns ++ ms) := by
  induction ns generalizing ts with
  | nil =>
    cases h with
    | nil => exact h'
  | cons n ns ih =>
    cases h with
    | cons hn hns =>
      rw [List.append_assoc]
      exact AreTrees.cons hn (ih hns)

theorem AreTrees.singleton {n : Node} (h : IsTree d ts n) : AreTrees d ts [n] := by
  have hcons := AreTrees.cons h AreTrees.nil
  rwa [List.append_nil] at hcons

/-- A segment is what the relation takes, so that it has what every such part has. -/
theorem Takes.of_local {α : Type} {R : List Token → List Token → α → Prop} {a : α}
    {P : List Token → Prop} (h : Takes R ts a)
    (hP : R (ts ++ []) [] a → ∃ seg, ts ++ [] = seg ++ [] ∧ P seg) : P ts := by
  obtain ⟨seg, hts, hseg⟩ := hP (h [])
  rwa [List.append_cancel_right hts]

section Parts

variable {call : Invocation} {calls : List Invocation}

theorem exists_isTree_of_isCall {op : Operator} (h : IsCall d op ts rest call) :
    ∃ seg, ts = seg ++ rest ∧ IsTree d seg (.invocation call) := by
  obtain ⟨seg, hts, hseg⟩ := isLocal_isCall h
  exact ⟨seg, hts, IsTree.known hseg⟩

theorem exists_isTree_of_isCallOf {p : Production} (h : IsCallOf d p ts rest call) :
    ∃ seg, ts = seg ++ rest ∧ IsTree d seg (.invocation call) := by
  obtain ⟨hcall, -⟩ := h
  exact exists_isTree_of_isCall hcall

theorem exists_isTree_of_isPaint (h : IsPaint d ts rest call) :
    ∃ seg, ts = seg ++ rest ∧ IsTree d seg (.invocation call) := by
  obtain ⟨hcall, -⟩ := h
  exact exists_isTree_of_isCall hcall

theorem exists_areTrees_of_isClip {clip : Option Invocation} (h : IsClip d ts rest clip) :
    ∃ seg, ts = seg ++ rest ∧ AreTrees d seg (clip.toList.map .invocation) := by
  cases h with
  | none => exact ⟨[], rfl, AreTrees.nil⟩
  | some hcall hop =>
    obtain ⟨seg, hts, hseg⟩ := exists_isTree_of_isCall hcall
    exact ⟨seg, hts, AreTrees.singleton hseg⟩

theorem exists_areTrees_of_areDrawn (h : AreDrawn d ts rest calls) :
    ∃ seg, ts = seg ++ rest ∧ AreTrees d seg (calls.map .invocation) := by
  induction h with
  | nil => exact ⟨[], rfl, AreTrees.nil⟩
  | cons hcall hop hcalls ih =>
    obtain ⟨seg, hts, hseg⟩ := exists_isTree_of_isCall hcall
    obtain ⟨segs, hus, hsegs⟩ := ih
    exact ⟨seg ++ segs, by rw [hts, hus, List.append_assoc], AreTrees.cons hseg hsegs⟩

end Parts

/-- A tree is a call, or the tokens of its children are its own. -/
theorem IsTree.call_or_group {n : Node} (h : IsTree d ts n) :
    (∃ call, n = .invocation call ∧ ((∃ op, Takes (IsCall d op) ts call) ∨
      Takes (IsUncheckedCall d) ts call)) ∨
    ∃ p cs, n = .ofChildren p cs ∧ cs ≠ [] ∧ AreTrees d ts cs := by
  cases h with
  | known hcall => exact .inl ⟨_, rfl, .inl ⟨_, hcall⟩⟩
  | undefined hcall hop => exact .inl ⟨_, rfl, .inr hcall⟩
  | construction hdrawn hne =>
    exact .inr ⟨_, _, rfl, by simpa using hne, hdrawn.of_local exists_areTrees_of_areDrawn⟩
  | path hdrawn hne hclip hpaint =>
    have hconstruction := IsTree.construction hdrawn hne
    have hclip' := hclip.of_local exists_areTrees_of_isClip
    have hpaint' := hpaint.of_local exists_isTree_of_isPaint
    have htail := hclip'.append (AreTrees.singleton hpaint')
    refine .inr ⟨_, _, rfl, List.cons_ne_nil _ _, AreTrees.cons hconstruction ?_⟩
    rw [List.map_append]
    exact htail
  | image hbegin hdata hfin =>
    have hbegin' := hbegin.of_local exists_isTree_of_isCallOf
    have hdata' := hdata.of_local exists_isTree_of_isCallOf
    have hfin' := hfin.of_local exists_isTree_of_isCallOf
    have htail := AreTrees.cons hdata' (AreTrees.singleton hfin')
    exact .inr ⟨_, _, rfl, List.cons_ne_nil _ _, AreTrees.cons hbegin' htail⟩
  | within hcs hne => exact .inr ⟨_, _, rfl, hne, hcs⟩

mutual

/-- Every item is such a tree. -/
theorem exists_isTree_of_isItem {o : Options} {w : Setting} {glyph : Bool} {ts rest : List Token}
    {n : Node} (h : IsItem o w glyph ts rest n) :
    ∃ seg, ts = seg ++ rest ∧ IsTree o.nestingLimit seg n := by
  match h with
  | .single hcall hop => exact exists_isTree_of_isCall hcall
  | .undefined hcall hop hw ho =>
    obtain ⟨seg, hts, hseg⟩ := isLocal_isUncheckedCall hcall
    exact ⟨seg, hts, IsTree.undefined hseg hop⟩
  | .path hdrawn hne hclip hpaint hw =>
    obtain ⟨seg, rfl, hseg⟩ := isLocal_areDrawn hdrawn
    obtain ⟨seg', rfl, hseg'⟩ := isLocal_isClip hclip
    obtain ⟨seg'', rfl, hseg''⟩ := isLocal_isPaint hpaint
    exact ⟨seg ++ (seg' ++ seg''), by simp, IsTree.path hseg hne hseg' hseg''⟩
  | .image hbegin hdata hfin hw =>
    obtain ⟨seg, rfl, hseg⟩ := isLocal_isCallOf hbegin
    obtain ⟨seg', rfl, hseg'⟩ := isLocal_isCallOf hdata
    obtain ⟨seg'', rfl, hseg''⟩ := isLocal_isCallOf hfin
    exact ⟨seg ++ (seg' ++ seg''), by simp, IsTree.image hseg hseg' hseg''⟩
  | .closed hw hopening hns hclosing =>
    obtain ⟨seg, hts, hseg⟩ := exists_isTree_of_isCallOf hopening
    obtain ⟨segs, hus, hsegs⟩ := exists_areTrees_of_areItems hns
    obtain ⟨seg', hvs, hseg'⟩ := exists_isTree_of_isCallOf hclosing
    have hcs := AreTrees.cons hseg (hsegs.append (AreTrees.singleton hseg'))
    exact ⟨_, by rw [hts, hus, hvs]; simp, IsTree.within hcs (List.cons_ne_nil _ _)⟩
  | .unclosed ho hw hopening hns =>
    obtain ⟨seg, hts, hseg⟩ := exists_isTree_of_isCallOf hopening
    obtain ⟨segs, hus, hsegs⟩ := exists_areTrees_of_areItems hns
    have hcs := AreTrees.cons hseg hsegs
    exact ⟨_, by rw [hts, hus, List.append_assoc],
      @IsTree.within _ .stateBlock _ _ hcs (List.cons_ne_nil _ _)⟩

theorem exists_areTrees_of_areItems {o : Options} {w : Setting} {glyph : Bool}
    {ts rest : List Token} {ns : List Node} (h : AreItems o w glyph ts rest ns) :
    ∃ seg, ts = seg ++ rest ∧ AreTrees o.nestingLimit seg ns := by
  match h with
  | .nil => exact ⟨[], rfl, AreTrees.nil⟩
  | .cons hn hns =>
    obtain ⟨seg, hts, hseg⟩ := exists_isTree_of_isItem hn
    obtain ⟨segs, hus, hsegs⟩ := exists_areTrees_of_areItems hns
    exact ⟨seg ++ segs, by rw [hts, hus, List.append_assoc], AreTrees.cons hseg hsegs⟩

end

mutual

/-- Every node of a tree is a tree of its own, of some tokens in a row. -/
theorem exists_isTree_of_mem {ts : List Token} (n : Node) (h : IsTree d ts n) {m : Node}
    (hm : m ∈ n.subtrees) :
    ∃ before seg after, ts = before ++ (seg ++ after) ∧ IsTree d seg m := by
  match n with
  | .invocation call =>
    obtain rfl := List.mem_singleton.mp hm
    exact ⟨[], ts, [], by simp, h⟩
  | .group p cs s =>
    rcases List.mem_cons.mp hm with rfl | hm
    · exact ⟨[], ts, [], by simp, h⟩
    · obtain ⟨call, hcall, -⟩ | ⟨p', cs', hgroup, -, hcs⟩ := h.call_or_group
      · exact absurd hcall (by simp)
      · obtain ⟨rfl, rfl, -⟩ := Node.group.inj hgroup
        exact exists_isTree_of_mem_all cs hcs hm

theorem exists_isTree_of_mem_all {ts : List Token} (cs : List Node) (h : AreTrees d ts cs)
    {m : Node} (hm : m ∈ Node.subtreesAll cs) :
    ∃ before seg after, ts = before ++ (seg ++ after) ∧ IsTree d seg m := by
  match cs, h with
  | [], _ => exact absurd hm List.not_mem_nil
  | c :: cs, @AreTrees.cons _ ts us _ _ hc hcs =>
    rcases List.mem_append.mp hm with hm | hm
    · obtain ⟨before, seg, after, rfl, hseg⟩ := exists_isTree_of_mem c hc hm
      exact ⟨before, seg, after ++ us, by simp, hseg⟩
    · obtain ⟨before, seg, after, rfl, hseg⟩ := exists_isTree_of_mem_all cs hcs hm
      exact ⟨ts ++ before, seg, after, by simp, hseg⟩

end

end Grammar

/-! ## Calls -/

/-- The call lies at the tokens: they say its operands and its operator, and it goes from
    the first of them, which is the operator if there are no operands, to the operator. -/
structure Invocation.LiesAt (call : Invocation) (ts : List Token) : Prop where
  lexemes : ts.map (·.lexeme) = call.lexemes
  covers : call.span.Covers ts

namespace Grammar

variable {d : Nat} {ts rest : List Token} {call : Invocation}

/-- Operands and an operator are what a call of them lies at. -/
theorem exists_liesAt_of_pending {pending : List Token} {t : Token} {keyword : String}
    {xs : List (Operand × Span)} (hts : InOrder (pending ++ t :: rest))
    (hpending : AreOperands d pending xs) (ht : t.lexeme = .operator keyword)
    (production : Production) (category : Option Category) :
    ∃ seg, pending ++ t :: rest = seg ++ rest ∧
      Invocation.LiesAt ⟨production, keyword, category, xs.map (·.1), callSpan xs t.span⟩ seg := by
  rw [List.append_cons] at hts
  refine ⟨pending ++ [t], List.append_cons pending t rest, ?_, covers_callSpan hts.left hpending⟩
  have hlexemes := lexemes_of_pending hpending ht []
  rwa [List.map_nil, List.append_nil] at hlexemes

theorem exists_liesAt_of_isCall {op : Operator} (hts : InOrder ts)
    (h : IsCall d op ts rest call) : ∃ seg, ts = seg ++ rest ∧ call.LiesAt seg := by
  obtain ⟨hpending, ht⟩ := h
  exact exists_liesAt_of_pending hts hpending ht _ _

theorem exists_liesAt_of_isUncheckedCall (hts : InOrder ts)
    (h : IsUncheckedCall d ts rest call) : ∃ seg, ts = seg ++ rest ∧ call.LiesAt seg := by
  obtain ⟨hpending, ht⟩ := h
  exact exists_liesAt_of_pending hts hpending ht _ _

/-- A tree is a call that lies at its tokens, or the tokens of its children are its own. -/
theorem IsTree.liesAt_or_group {n : Node} (hts : InOrder ts) (h : IsTree d ts n) :
    (∃ call, n = .invocation call ∧ call.LiesAt ts) ∨
      ∃ p cs, n = .ofChildren p cs ∧ cs ≠ [] ∧ AreTrees d ts cs := by
  rw [← List.append_nil ts] at hts
  refine h.call_or_group.imp_left ?_
  intro hparts
  obtain ⟨call, rfl, ⟨op, hcall⟩ | hcall⟩ := hparts
  · exact ⟨call, rfl, hcall.of_local (exists_liesAt_of_isCall hts)⟩
  · exact ⟨call, rfl, hcall.of_local (exists_liesAt_of_isUncheckedCall hts)⟩

/-! ## Spans of trees -/

mutual

/-- **Spans**: a node covers the tokens that it stands for. -/
theorem covers_of_isTree {ts : List Token} (n : Node) (hts : InOrder ts) (h : IsTree d ts n) :
    n.span.Covers ts := by
  match n with
  | .invocation call =>
    obtain ⟨call', hcall, hlies⟩ | ⟨p, cs, hgroup, -⟩ := h.liesAt_or_group hts
    · obtain rfl := Node.invocation.inj hcall
      exact hlies.covers
    · exact absurd hgroup (by simp [Node.ofChildren])
  | .group p cs s =>
    obtain ⟨call, hcall, -⟩ | ⟨p', cs', hgroup, hne, hcs⟩ := h.liesAt_or_group hts
    · exact absurd hcall (by simp)
    · obtain ⟨rfl, rfl, rfl⟩ := Node.group.inj hgroup
      exact (tile_of_areTrees cs hts hcs).covers hts (by simpa using hne)

theorem tile_of_areTrees {ts : List Token} (cs : List Node) (hts : InOrder ts)
    (h : AreTrees d ts cs) : Span.Tile (cs.map Node.span) ts := by
  match cs, h with
  | [], .nil => exact Span.Tile.nil
  | c :: cs, .cons hc hcs =>
    exact Span.Tile.cons (covers_of_isTree c hts.left hc) (tile_of_areTrees cs hts.right hcs)

end

mutual

/-- **Calls**: the tokens of a tree are those of its calls, one call after the other. -/
theorem exists_segments_of_isTree {ts : List Token} (n : Node) (hts : InOrder ts)
    (h : IsTree d ts n) :
    ∃ segs, ts = segs.flatten ∧ List.Forall₂ Invocation.LiesAt n.leaves segs := by
  match n with
  | .invocation call =>
    obtain ⟨call', hcall, hlies⟩ | ⟨p, cs, hgroup, -⟩ := h.liesAt_or_group hts
    · obtain rfl := Node.invocation.inj hcall
      exact ⟨[ts], by simp, List.Forall₂.cons hlies List.Forall₂.nil⟩
    · exact absurd hgroup (by simp [Node.ofChildren])
  | .group p cs s =>
    obtain ⟨call, hcall, -⟩ | ⟨p', cs', hgroup, hne, hcs⟩ := h.liesAt_or_group hts
    · exact absurd hcall (by simp)
    · obtain ⟨rfl, rfl, -⟩ := Node.group.inj hgroup
      exact exists_segments_of_areTrees cs hts hcs

theorem exists_segments_of_areTrees {ts : List Token} (cs : List Node) (hts : InOrder ts)
    (h : AreTrees d ts cs) :
    ∃ segs, ts = segs.flatten ∧ List.Forall₂ Invocation.LiesAt (Node.leavesAll cs) segs := by
  match cs, h with
  | [], .nil => exact ⟨[], rfl, List.Forall₂.nil⟩
  | c :: cs, .cons hc hcs =>
    obtain ⟨segs, rfl, hsegs⟩ := exists_segments_of_isTree c hts.left hc
    obtain ⟨segs', rfl, hsegs'⟩ := exists_segments_of_areTrees cs hts.right hcs
    exact ⟨segs ++ segs', by simp, List.rel_append hsegs hsegs'⟩

end

/-- The root of a stream that is not empty covers all its tokens. -/
theorem covers_root {ts : List Token} {ns : List Node} (hts : InOrder ts)
    (h : AreTrees d ts ns) (hne : ns ≠ []) : (Node.ofChildren .content ns).span.Covers ts :=
  (tile_of_areTrees ns hts h).covers hts (by simpa using hne)

end Grammar

/-! ## Groups -/

/-- The children lie one after the other, and the span goes from the start of the first
    one to the end of the last. -/
structure Span.Encloses (s : Span) (cs : List Node) : Prop where
  apart : cs.Pairwise fun c c' => c.span.stop ≤ c'.span.start
  ends : ∃ first last, cs.head? = some first ∧ cs.getLast? = some last ∧
    s = ⟨first.span.start, last.span.stop⟩

theorem Grammar.encloses_of_areTrees {d : Nat} {ts : List Token} {cs : List Node}
    (hts : InOrder ts) (h : AreTrees d ts cs) (hne : cs ≠ []) :
    (Span.ofRun (cs.map Node.span)).Encloses cs := by
  have htile := tile_of_areTrees cs hts h
  refine ⟨List.pairwise_map.mp (htile.pairwise hts), ?_⟩
  have hfirst := List.head?_eq_some_head hne
  have hlast := List.getLast?_eq_some_getLast hne
  exact ⟨_, _, hfirst, hlast, htile.ofRun_eq hts (by rw [List.head?_map, hfirst]; rfl)
    (by rw [List.getLast?_map, hlast]; rfl)⟩

/-! ## Content streams -/

namespace ContentStream

open Grammar

variable {o : Options} {bytes : List UInt8} {s : ContentStream} {ts : List Token} {eof : Token}

/-- The tokens of a stream are in order, and lie in it. -/
theorem inOrder_of_tokenize (h : tokenize bytes = .ok (ts ++ [eof])) :
    InOrder ts ∧ ∀ t ∈ ts, t.span.stop ≤ bytes.length := by
  obtain ⟨l, -, hreach, -⟩ := Lexer.exists_reaches h
  refine ⟨hreach.inOrder, ?_⟩
  intro t ht
  have hstop := (hreach.between t ht).2.2
  have hlength := hreach.position_add_length
  omega

/-- The tokens of a stream that is accepted are the trees that its root consists of. -/
theorem exists_trees_of_parse (h : parse o bytes = .ok s) :
    ∃ ts eof ns, tokenize bytes = .ok (ts ++ [eof]) ∧ s.root = .ofChildren .content ns ∧
      AreTrees o.nestingLimit ts ns := by
  obtain ⟨ts, eof, htokens, -, ns, hns, hroot⟩ := (parse_eq_ok_iff o bytes s).mp h
  obtain ⟨seg, hts, hseg⟩ := exists_areTrees_of_areItems hns
  rw [List.append_nil] at hts
  exact ⟨ts, eof, ns, htokens, hroot, hts ▸ hseg⟩

/-- Every node but the root is a tree of some tokens in a row. -/
theorem exists_isTree_of_mem_root {ns : List Node} (h : AreTrees o.nestingLimit ts ns) {n : Node}
    (hn : n ∈ (Node.ofChildren .content ns).subtrees) :
    n = .ofChildren .content ns ∨
      ∃ before seg after, ts = before ++ (seg ++ after) ∧ IsTree o.nestingLimit seg n :=
  (List.mem_cons.mp hn).imp_right (exists_isTree_of_mem_all ns h)

/-- **Calls**: the tokens of a stream are those of its calls, one call after the other. -/
theorem exists_segments_of_parse (h : parse o bytes = .ok s) :
    ∃ segs eof, tokenize bytes = .ok (segs.flatten ++ [eof]) ∧
      List.Forall₂ Invocation.LiesAt s.root.leaves segs := by
  obtain ⟨ts, eof, ns, htokens, hroot, hns⟩ := exists_trees_of_parse h
  obtain ⟨segs, rfl, hsegs⟩ := exists_segments_of_areTrees ns (inOrder_of_tokenize htokens).1 hns
  rw [hroot, Node.leaves_ofChildren]
  exact ⟨segs, eof, htokens, hsegs⟩

/-- **Spans**: every node lies in the stream. -/
theorem span_of_mem_subtrees (h : parse o bytes = .ok s) {n : Node} (hn : n ∈ s.root.subtrees) :
    n.span.start ≤ n.span.stop ∧ n.span.stop ≤ bytes.length := by
  obtain ⟨ts, eof, ns, htokens, hroot, hns⟩ := exists_trees_of_parse h
  obtain ⟨hts, hlength⟩ := inOrder_of_tokenize htokens
  have hcovers : ∀ seg before after, ts = before ++ (seg ++ after) → n.span.Covers seg →
      n.span.start ≤ n.span.stop ∧ n.span.stop ≤ bytes.length := by
    intro seg before after hsplit hseg
    subst hsplit
    obtain ⟨-, -, last, hlast, -, hstop⟩ := hseg.exists_mem
    refine ⟨hseg.start_le_stop hts.right.left, hstop ▸ hlength last ?_⟩
    exact List.mem_append_right before (List.mem_append_left after hlast)
  rw [hroot] at hn
  obtain rfl | ⟨before, seg, after, hsplit, hseg⟩ := exists_isTree_of_mem_root hns hn
  · by_cases hne : ns = []
    · subst hne
      exact ⟨Nat.le_refl 0, Nat.zero_le _⟩
    · exact hcovers ts [] [] (by simp) (covers_root hts hns hne)
  · subst hsplit
    exact hcovers seg before after rfl (covers_of_isTree n hts.right.left hseg)

/-- **Groups**: every group encloses its children, unless it is an empty root. -/
theorem encloses_of_mem_subtrees (h : parse o bytes = .ok s) {p : Production} {cs : List Node}
    {place : Span} (hn : .group p cs place ∈ s.root.subtrees) :
    place.Encloses cs ∨ s.root = .group p cs place ∧ cs = [] ∧ place = ⟨0, 0⟩ := by
  obtain ⟨ts, eof, ns, htokens, hroot, hns⟩ := exists_trees_of_parse h
  have hts := (inOrder_of_tokenize htokens).1
  rw [hroot] at hn ⊢
  obtain hgroup | ⟨before, seg, after, hsplit, hseg⟩ := exists_isTree_of_mem_root hns hn
  · obtain ⟨rfl, rfl, rfl⟩ := Node.group.inj hgroup
    by_cases hne : cs = []
    · subst hne
      exact .inr ⟨rfl, rfl, rfl⟩
    · exact .inl (encloses_of_areTrees hts hns hne)
  · subst hsplit
    obtain ⟨call, hcall, -⟩ | ⟨p', cs', hgroup, hne, hcs⟩ := hseg.call_or_group
    · exact absurd hcall (by simp)
    · obtain ⟨rfl, rfl, rfl⟩ := Node.group.inj hgroup
      exact .inl (encloses_of_areTrees hts.right.left hcs hne)

end ContentStream

end PageContent
