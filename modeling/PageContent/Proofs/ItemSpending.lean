import PageContent.Proofs.Spending
import PageContent.Proofs.ItemDescent
import PageContent.Proofs.Leaves

/-! # Tokens that items use

    An item begins with a call, whatever is open around it.

    * **Paths**: a construction has calls, and so have the path and the image.
    * **Groups**: the items of a section come after its opening call. By induction on
      the size of the feed, since sections hold items.
    * **Items** begin with the call that the next operator makes. Other productions do
      so too, apart from a whole stream, which may have no call at all.
-/

namespace PageContent

namespace Descent

/-- The node begins with the call that the tokens begin with. -/
def Begins (n : Node) (ts : List Token) : Prop :=
  ∃ call others, n.leaves = call :: others ∧ Leads call ts

theorem Begins.ne_nil {n : Node} {ts : List Token} (h : Begins n ts) : ts ≠ [] := by
  obtain ⟨call, others, -, hleads⟩ := h
  exact hleads.ne_nil

section Items

variable {d : Descent}

theorem begins_invocation {call : Invocation} {ts : List Token} (h : Leads call ts) :
    Begins (.invocation call) ts :=
  ⟨call, [], rfl, h⟩

/-- What comes after the first call does not matter. -/
theorem Begins.ofChildren {n : Node} {ts : List Token} (h : Begins n ts) (p : Production)
    (others : List Node) (us : List Token) : Begins (.ofChildren p (n :: others)) (ts ++ us) := by
  obtain ⟨call, calls, hleaves, hleads⟩ := h
  refine ⟨call, calls ++ Node.leavesAll others, ?_, hleads.append us⟩
  rw [Node.leaves_ofChildren, Node.leavesAll, hleaves, List.cons_append]

/-- A call alone, as a node. -/
theorem call_begins {x : Call Invocation} (hx : Spends x d Leads) :
    Spends (do return .invocation (← x)) d Begins := by
  refine Spends.bind hx ?_
  intro call ts d' hlater _ hleads
  refine Spends.pure hlater.consistent ?_
  rw [List.append_nil]
  exact begins_invocation hleads

/-! ## Paths and images -/

theorem peekOperator_spends (hd : d.Consistent) :
    Spends peekOperator d fun _ ts => ts = [] := by
  refine Spends.peekKeyword hd ?_
  intro t d' hlater _ _
  exact Spends.pure hlater.consistent rfl

/-- A run of drawing operators, after some of them. -/
def Constructs (drawn : List Invocation) (n : Node) (ts : List Token) : Prop :=
  ∃ calls, n = .ofChildren .pathConstruction ((drawn ++ calls).map .invocation) ∧
    (drawn = [] → ∃ call others, calls = call :: others ∧ Leads call ts)

theorem Constructs.begins {n : Node} {ts : List Token} (h : Constructs [] n ts) : Begins n ts := by
  obtain ⟨calls, rfl, hfirst⟩ := h
  obtain ⟨call, others, rfl, hleads⟩ := hfirst rfl
  have hbegins := (begins_invocation hleads).ofChildren .pathConstruction
    (others.map .invocation) []
  rwa [List.append_nil] at hbegins

theorem stopDrawing_spends (hd : d.Consistent) (drawn : List Invocation) :
    Spends (stopDrawing drawn) d (Constructs drawn) := by
  unfold stopDrawing
  split
  · refine Spends.peekKeyword hd ?_
    intro t d' hlater _ _
    exact Spends.throw hlater.consistent _
  · next hdrawn =>
    exact Spends.pure hd ⟨[], by rw [List.append_nil], fun hnil => absurd hnil hdrawn⟩

theorem construction_spends {d : Descent} (hd : d.Consistent) (drawn : List Invocation) :
    Spends (construction drawn) d (Constructs drawn) := by
  rw [construction]
  refine Spends.bind (peekOperator_spends hd) ?_
  rintro o _ d₁ hlater₁ huses₁ rfl
  split
  · refine Spends.bind (invocation_spends hlater₁.consistent _) ?_
    intro call ts d₂ hlater₂ huses₂ hleads
    have hless : d₂.feed.size < d.feed.size :=
      Nat.lt_of_lt_of_le (huses₂.size_lt hleads.ne_nil) hlater₁.size
    refine (construction_spends hlater₂.consistent (drawn ++ [call])).mono ?_
    rintro n us ⟨calls, rfl, -⟩
    refine ⟨call :: calls, by simp, fun _ => ⟨call, calls, rfl, ?_⟩⟩
    exact hleads.append us
  · exact stopDrawing_spends hlater₁.consistent drawn
termination_by d.feed.size

theorem clipping_spends (hd : d.Consistent) : Spends clipping d fun _ _ => True := by
  refine Spends.bind (peekOperator_spends hd) ?_
  intro o _ d₁ hlater₁ _ _
  split
  · refine Spends.bind (invocation_spends hlater₁.consistent _) ?_
    intro call _ d₂ hlater₂ _ _
    exact Spends.pure hlater₂.consistent trivial
  · exact Spends.pure hlater₁.consistent trivial

theorem painting_spends (hd : d.Consistent) : Spends painting d fun _ _ => True := by
  refine Spends.bind (peekOperator_spends hd) ?_
  intro o _ d₁ hlater₁ _ _
  split
  · exact (invocation_spends hlater₁.consistent _).mono fun _ _ _ => trivial
  · refine Spends.peekKeyword hlater₁.consistent ?_
    intro t d₂ hlater₂ _ _
    exact Spends.throw hlater₂.consistent _

theorem pathObject_spends (hd : d.Consistent) : Spends pathObject d Begins := by
  refine Spends.bind (construction_spends hd []) ?_
  intro drawn ts d₁ hlater₁ _ hdrawn
  refine Spends.bind (clipping_spends hlater₁.consistent) ?_
  intro clip us d₂ hlater₂ _ _
  refine Spends.bind (painting_spends hlater₂.consistent) ?_
  intro paint vs d₃ hlater₃ _ _
  exact Spends.pure hlater₃.consistent (hdrawn.begins.ofChildren _ _ _)

theorem inlineImage_spends (hd : d.Consistent) : Spends inlineImage d Begins := by
  refine Spends.bind (invocation_spends hd _) ?_
  intro begin ts d₁ hlater₁ _ hleads
  refine Spends.bind (invocation_spends hlater₁.consistent _) ?_
  intro data us d₂ hlater₂ _ _
  refine Spends.bind (invocation_spends hlater₂.consistent _) ?_
  intro fin vs d₃ hlater₃ _ _
  exact Spends.pure hlater₃.consistent ((begins_invocation hleads).ofChildren _ _ _)

/-! ## Groups -/

theorem enterGroup_cases (d : Descent) (opened : Span) :
    (∃ e, enterGroup opened d = some (.error e, d)) ∨
      enterGroup opened d = some (.ok (),
        { d with groups := { d.groups with depth := d.groups.depth + 1 } }) ∧
      d.groups.depth + 1 ≤ d.groups.limit :=
  enter_cases d.groups opened (fun guard d => { d with groups := guard }) d rfl

theorem group_guards (hd : d.Consistent) (opened : Span) :
    Guards (enterGroup opened) leaveGroup d := by
  refine Guards.of_counters hd
    { d with groups := { d.groups with depth := d.groups.depth + 1 } }
    ((enterGroup_cases d opened).imp_right And.left) ?_
  intro d₂ hcounters
  have hdepth : d₂.groups.depth = d.groups.depth + 1 := congrArg (·.1) hcounters
  have hcontainers : d₂.containers.depth = d.containers.depth := congrArg (·.2.1) hcounters
  have hcompatibility : d₂.compatibility = d.compatibility := congrArg (·.2.2) hcounters
  rw [leaveGroup_eq hdepth, withCounters, ← hcontainers, ← hcompatibility]

theorem compatibility_guards (hd : d.Consistent) :
    Guards enterCompatibility leaveCompatibility d := by
  refine Guards.of_counters hd { d with compatibility := d.compatibility + 1 } (.inr rfl) ?_
  intro d₂ hcounters
  have hgroups : d₂.groups.depth = d.groups.depth := congrArg (·.1) hcounters
  have hcontainers : d₂.containers.depth = d.containers.depth := congrArg (·.2.1) hcounters
  have hdepth : d₂.compatibility = d.compatibility + 1 := congrArg (·.2.2) hcounters
  rw [leaveCompatibility_eq hdepth, withCounters, ← hgroups, ← hcontainers]

/-- With fewer than `n` tokens ahead, the items of a section come after those that were
    there before. -/
def SectionsSpend (n : Nat) : Prop :=
  ∀ d : Descent, d.Consistent → d.feed.size < n → ∀ s inner nodes,
    Spends (sectionItems s inner nodes) d fun all _ => ∃ others, all = nodes ++ others

theorem sectionAfter_spends {n : Nat} (hsections : SectionsSpend n) (hd : d.Consistent)
    (hsize : d.feed.size < n) (s : Section) (inner : Level) (call : Invocation) :
    Spends (sectionAfter s inner call) d fun m _ =>
      ∃ others, m = .ofChildren s.production (.invocation call :: others) := by
  have hitems : ∀ d', Later d d' → d'.feed = d.feed →
      Spends (sectionItems s inner [.invocation call]) d'
        fun all _ => ∃ others, all = [.invocation call] ++ others := by
    intro d' hlater hfeed
    exact hsections d' hlater.consistent (hfeed ▸ hsize) s inner [.invocation call]
  rw [sectionAfter]
  refine Spends.guarded (group_guards hd call.span) (fun _ => rfl) hitems ?_
  rintro all ts d' hd' ⟨others, rfl⟩
  exact Spends.pure hd' ⟨others, rfl⟩

theorem group_spends {n : Nat} (hsections : SectionsSpend n) (hd : d.Consistent)
    (hsize : d.feed.size ≤ n) (s : Section) (level : Level) :
    Spends (group s level) d Begins := by
  rw [group]
  refine Spends.bind (invocation_spends hd _) ?_
  intro call ts d₁ hlater₁ huses₁ hleads
  have hless : d₁.feed.size < n := Nat.lt_of_lt_of_le (huses₁.size_lt hleads.ne_nil) hsize
  have hbegins : ∀ m us, (∃ others, m = .ofChildren s.production (.invocation call :: others)) →
      Begins m (ts ++ us) := by
    rintro m us ⟨others, rfl⟩
    exact (begins_invocation hleads).ofChildren _ _ _
  have hafter : ∀ d', Later d₁ d' → d'.feed = d₁.feed →
      Spends (sectionAfter s (s.inner level) call) d'
        fun m _ => ∃ others, m = .ofChildren s.production (.invocation call :: others) := by
    intro d' hlater hfeed
    exact sectionAfter_spends hsections hlater.consistent (hfeed ▸ hless) s _ call
  split
  · refine Spends.guarded (compatibility_guards hlater₁.consistent) (fun _ => rfl) hafter ?_
    intro m us d' hd' hm
    refine Spends.pure hd' ?_
    rw [List.append_nil]
    exact hbegins m us hm
  · exact (hafter d₁ (Later.refl hlater₁.consistent) rfl).mono hbegins

/-! ## Items -/

theorem node_spends {n : Nat} (hsections : SectionsSpend n) (hd : d.Consistent)
    (hsize : d.feed.size ≤ n) (level : Level) {part : Part} (hpart : part.Initial) :
    Spends (node level part.production) d Begins := by
  cases hpart with
  | opening s =>
    show Spends (node level s.production) d Begins
    rw [node_section]
    exact group_spends hsections hd hsize s level
  | @single p hgroup hp =>
    show Spends (node level p) d Begins
    rw [node_single hgroup hp]
    exact call_begins (invocation_spends hd p)
  | undefined =>
    show Spends (node level .unknownOperator) d Begins
    rw [node]
    exact call_begins (undefinedInvocation_spends hd)
  | path =>
    show Spends (node level .pathObject) d Begins
    rw [node]
    exact pathObject_spends hd
  | image =>
    show Spends (node level .inlineImage) d Begins
    rw [node]
    exact inlineImage_spends hd

theorem dangling_spends (hd : d.Consistent) (eof : Token) : Spends (dangling eof) d Begins := by
  refine Spends.peek hd ?_
  intro t d' hlater _ _
  split
  · exact Spends.throw hlater.consistent _
  · exact Spends.throw hlater.consistent _

theorem undefinedItem_spends (hd : d.Consistent) (t : Token) :
    Spends (undefinedItem t) d Begins := by
  refine Spends.get ?_
  split
  · exact call_begins (undefinedInvocation_spends hd)
  · exact Spends.throw hd _

theorem item_spends_of {n : Nat} (hsections : SectionsSpend n) (hd : d.Consistent)
    (hsize : d.feed.size ≤ n) (level : Level) (glyph : Bool) :
    Spends (item level glyph) d Begins := by
  rw [item]
  refine Spends.peekKeyword hd ?_
  intro t d' hlater huses _
  have hd' := hlater.consistent
  have hsize' : d'.feed.size ≤ n := Nat.le_trans hlater.size hsize
  split
  · next keyword hkeyword =>
    split
    · exact undefinedItem_spends hd' t
    · next op hop =>
      split
      · next part hrole =>
        have hinitial := Part.initial_of_role (Operator.mem_catalog_of_lookup? hop) hrole
        exact node_spends hsections hd' hsize' level hinitial
      · exact Spends.throw hd' _
      · exact Spends.throw hd' _
  · exact dangling_spends hd' t

theorem atEnd_spends (hd : d.Consistent) (keyword : Token) :
    Spends (atEnd keyword) d fun _ ts => ts = [] := by
  unfold atEnd
  split
  · refine Spends.peek hd ?_
    intro t d' hlater _ _
    exact Spends.pure hlater.consistent rfl
  · exact Spends.pure hd rfl

/-- One more item of a section, and those after it. -/
theorem SectionsSpend.step {n : Nat} (ih : SectionsSpend n) : SectionsSpend (n + 1) := by
  intro d hd hsize s inner nodes
  rw [sectionItems]
  refine Spends.peekKeyword hd ?_
  intro t d₁ hlater₁ _ _
  split
  · refine Spends.bind (invocation_spends hlater₁.consistent _) ?_
    intro call ts d₂ hlater₂ _ _
    exact Spends.pure hlater₂.consistent ⟨[.invocation call], rfl⟩
  · refine Spends.bind (atEnd_spends hlater₁.consistent t) ?_
    intro b us d₂ hlater₂ _ _
    split
    · refine Spends.get ?_
      split
      · exact Spends.pure hlater₂.consistent ⟨[], (List.append_nil nodes).symm⟩
      · exact Spends.throw hlater₂.consistent _
    · have hle : d₂.feed.size ≤ n :=
        Nat.le_trans (hlater₁.trans hlater₂).size (Nat.le_of_lt_succ hsize)
      refine Spends.bind (item_spends_of ih hlater₂.consistent hle inner false) ?_
      intro m vs d₃ hlater₃ huses₃ hbegins
      have hless : d₃.feed.size < n := Nat.lt_of_lt_of_le (huses₃.size_lt hbegins.ne_nil) hle
      refine (ih d₃ hlater₃.consistent hless s inner (nodes ++ [m])).mono ?_
      rintro all _ ⟨more, rfl⟩
      exact ⟨m :: more, by simp⟩

theorem sections_spend (n : Nat) : SectionsSpend n := by
  induction n with
  | zero => exact fun d _ hsize => absurd hsize (Nat.not_lt_zero _)
  | succ n ih => exact ih.step

/-- **Items** begin with the call that the next operator makes. -/
theorem item_spends (hd : d.Consistent) (level : Level) (glyph : Bool) :
    Spends (item level glyph) d Begins :=
  item_spends_of (sections_spend d.feed.size) hd (Nat.le_refl _) level glyph

theorem sectionItems_spends (hd : d.Consistent) (s : Section) (inner : Level)
    (nodes : List Node) : Spends (sectionItems s inner nodes) d fun _ _ => True :=
  (sections_spend (d.feed.size + 1) d hd (Nat.lt_succ_self _) s inner nodes).mono
    fun _ _ _ => trivial

/-! ## Productions -/

theorem content_spends {d : Descent} (hd : d.Consistent) (nodes : List Node) :
    Spends (content nodes) d fun _ _ => True := by
  rw [content]
  refine Spends.peek hd ?_
  intro t d₁ hlater₁ _ _
  split
  · exact Spends.pure hlater₁.consistent trivial
  · refine Spends.bind (item_spends hlater₁.consistent _ _) ?_
    intro m ts d₂ hlater₂ huses₂ hbegins
    have hless : d₂.feed.size < d.feed.size :=
      Nat.lt_of_lt_of_le (huses₂.size_lt hbegins.ne_nil) hlater₁.size
    exact content_spends hlater₂.consistent (nodes ++ [m])
termination_by d.feed.size

/-- **Productions**: all but a whole stream begin with a call. -/
theorem production_spends (hd : d.Consistent) (level : Level) (p : Production) :
    Spends (node level p) d fun n ts => p ≠ .content → Begins n ts := by
  by_cases hcontent : p = .content
  · subst hcontent
    rw [node]
    exact (content_spends hd []).mono fun _ _ _ hne => absurd rfl hne
  by_cases hconstruction : p = .pathConstruction
  · subst hconstruction
    rw [node]
    exact (construction_spends hd []).mono fun _ _ hdrawn _ => hdrawn.begins
  obtain ⟨part, -, hinitial, rfl⟩ := exists_initial hcontent hconstruction
  exact (node_spends (sections_spend d.feed.size) hd (Nat.le_refl _) level hinitial).mono
    fun _ _ hbegins _ => hbegins

end Items

end Descent

end PageContent
