import PageContent.Proofs.ItemSpending
import PageContent.Proofs.Sessions

/-! # States that a session can be in

    What is true of every state in which a function of the descent stands, between two
    requests or in the middle of one.

    * **Rules**: the functions of the grammar. Each of them ends in any state, and uses
      tokens if it uses anything.
    * **Activities** are the functions that are under way, the innermost first. What an
      activity has done so far is passed over: between its own calls it may have moved
      on by any rules that succeed, in any order, so that no state is missed.
    * **Nesting**: as many groups and containers are open in a state as there are
      activities that read one, and no more than the options allow. Each move keeps it
      so, and by induction every state has it.
-/

namespace PageContent

namespace Descent

/-! ## Rules -/

/-- The functions of the grammar, and those that look ahead or use one token. -/
inductive IsRule : {α : Type} → Call α → Prop where
  | peek : IsRule peek
  | advance : IsRule advance
  | peekKeyword : IsRule peekKeyword
  | peekOperator : IsRule peekOperator
  | atEnd (t : Token) : IsRule (atEnd t)
  | operand : IsRule operand
  | arrayItems (items : List Operand) : IsRule (arrayItems items)
  | dictEntries (entries : List (String × Operand)) : IsRule (dictEntries entries)
  | operands (done : List (Operand × Span)) : IsRule (operands done)
  | invocation (p : Production) : IsRule (invocation p)
  | undefinedInvocation : IsRule undefinedInvocation
  | construction (drawn : List Invocation) : IsRule (construction drawn)
  | clipping : IsRule clipping
  | painting : IsRule painting
  | pathObject : IsRule pathObject
  | inlineImage : IsRule inlineImage
  | item (level : Level) (glyph : Bool) : IsRule (item level glyph)
  | node (level : Level) (p : Production) : IsRule (node level p)
  | content (nodes : List Node) : IsRule (content nodes)
  | group (s : Section) (level : Level) : IsRule (group s level)
  | sectionAfter (s : Section) (inner : Level) (call : Invocation) :
      IsRule (sectionAfter s inner call)
  | sectionItems (s : Section) (inner : Level) (nodes : List Node) :
      IsRule (sectionItems s inner nodes)

/-- **Every rule ends**, in any state, and has used tokens if it succeeds. -/
theorem IsRule.spends {α : Type} {x : Call α} (hx : IsRule x) {d : Descent}
    (hd : d.Consistent) : Spends x d fun _ _ => True := by
  have hany : ∀ {P : α → List Token → Prop}, Spends x d P → Spends x d fun _ _ => True :=
    fun h => h.mono fun _ _ _ => trivial
  have hcontainers := containers_spend (d.feed.size + 1) d hd (Nat.lt_succ_self _)
  have hsections := sections_spend (d.feed.size + 1)
  cases hx with
  | peek => exact hany (Spends.of_found (peek_found hd))
  | advance => exact hany (advance_spends hd)
  | peekKeyword => exact hany (Spends.of_found (peekKeyword_found hd))
  | peekOperator => exact hany (peekOperator_spends hd)
  | atEnd t => exact hany (atEnd_spends hd t)
  | operand => exact hany (operand_spends (containers_spend _) d hd (Nat.le_refl _))
  | arrayItems items => exact hany (hcontainers.1 items)
  | dictEntries entries => exact hany (hcontainers.2 entries)
  | operands done => exact hany (operands_spend hd done)
  | invocation p => exact hany (invocation_spends hd p)
  | undefinedInvocation => exact hany (undefinedInvocation_spends hd)
  | construction drawn => exact hany (construction_spends hd drawn)
  | clipping => exact hany (clipping_spends hd)
  | painting => exact hany (painting_spends hd)
  | pathObject => exact hany (pathObject_spends hd)
  | inlineImage => exact hany (inlineImage_spends hd)
  | item level glyph => exact hany (item_spends hd level glyph)
  | node level p => exact hany (production_spends hd level p)
  | content nodes => exact hany (content_spends hd nodes)
  | group s level => exact hany (group_spends hsections hd (Nat.le_succ _) s level)
  | sectionAfter s inner call =>
    exact hany (sectionAfter_spends hsections hd (Nat.lt_succ_self _) s inner call)
  | sectionItems s inner nodes => exact hany (sectionItems_spends hd s inner nodes)

/-! ## Activities -/

/-- A function under way. Those that read the members of an array or a dictionary, or
    the items of a section, do so while it is open. -/
inductive Activity where
  | operand
  | array
  | dictionary
  | operands
  | invocation
  | undefinedInvocation
  | construction
  | clipping
  | painting
  | pathObject
  | inlineImage
  | item
  | node
  | content
  | group
  | sectionItems
  deriving DecidableEq, Repr

namespace Activity

/-- The functions that each one calls without opening anything. -/
def calls : Activity → List Activity
  | operand => []
  | array => [operand]
  | dictionary => [operand]
  | operands => [operand]
  | invocation => [operands]
  | undefinedInvocation => [operands]
  | construction => [invocation]
  | clipping => [invocation]
  | painting => [invocation]
  | pathObject => [construction, clipping, painting]
  | inlineImage => [invocation]
  | item => [node, undefinedInvocation]
  | node => [content, pathObject, construction, group, inlineImage, undefinedInvocation,
      invocation]
  | content => [item]
  | group => [invocation]
  | sectionItems => [item, invocation]

/-- The inside of a container is read. -/
def readsContainer (f : Activity) : Bool :=
  f = array || f = dictionary

/-- The inside of a group is read. -/
def readsGroup (f : Activity) : Bool :=
  f = sectionItems

/-- What is called directly reads the inside of nothing. -/
theorem not_reads_of_mem_calls {f g : Activity} (h : g ∈ f.calls) :
    g.readsContainer = false ∧ g.readsGroup = false := by
  revert h
  cases f <;> cases g <;> decide

end Activity

/-- `Active o bytes log stack d`: in a session on some bytes, a state `d` can come up while
    the activities of the stack are under way, the innermost first. With none of them it
    is a state between two requests. -/
inductive Active (o : Options) (bytes : List UInt8) (log : ErrorLog) :
    List Activity → Descent → Prop where
  | start : Active o bytes log [] (start o bytes log)
  /-- A request has been answered, be it with an error. -/
  | answered {d d' : Descent} {r : Request} {a : Except ParseError Node}
      (h : Active o bytes log [] d) (hrun : answer r d = some (a, d')) : Active o bytes log [] d'
  /-- A request asks for a production. -/
  | request {d : Descent} (h : Active o bytes log [] d) : Active o bytes log [.node] d
  /-- One function calls another one. -/
  | call {f g : Activity} {stack : List Activity} {d : Descent}
      (h : Active o bytes log (f :: stack) d) (hg : g ∈ f.calls) :
      Active o bytes log (g :: f :: stack) d
  /-- The opening bracket of an array or a dictionary has been used. -/
  | container {g : Activity} {stack : List Activity} {d d' : Descent} {opened : Span}
      (h : Active o bytes log (.operand :: stack) d) (hg : g = .array ∨ g = .dictionary)
      (hrun : enterContainer opened d = some (.ok (), d')) :
      Active o bytes log (g :: .operand :: stack) d'
  /-- The opening operator of a compatibility section has been used. -/
  | compatibility {stack : List Activity} {d d' : Descent}
      (h : Active o bytes log (.group :: stack) d)
      (hrun : enterCompatibility d = some (.ok (), d')) : Active o bytes log (.group :: stack) d'
  /-- The opening operator of a section has been used. -/
  | group {stack : List Activity} {d d' : Descent} {opened : Span}
      (h : Active o bytes log (.group :: stack) d)
      (hrun : enterGroup opened d = some (.ok (), d')) :
      Active o bytes log (.sectionItems :: .group :: stack) d'
  /-- A function has moved on, by a rule that has succeeded. -/
  | moved {f : Activity} {stack : List Activity} {d d' : Descent} {α : Type} {x : Call α} {a : α}
      (h : Active o bytes log (f :: stack) d) (hx : IsRule x)
      (hrun : x d = some (.ok a, d')) : Active o bytes log (f :: stack) d'

/-! ## Nesting -/

/-- As many groups and containers are open as activities read one, and they may be. -/
structure Nested (o : Options) (stack : List Activity) (d : Descent) : Prop where
  consistent : d.Consistent
  options : d.options = o
  groups : d.groups.depth = stack.countP Activity.readsGroup
  containers : d.containers.depth = stack.countP Activity.readsContainer
  groups_le : d.groups.depth ≤ min o.maxNesting deepestNesting
  containers_le : d.containers.depth ≤ min o.maxNesting deepestNesting

section Nesting

variable {o : Options} {stack : List Activity} {d d' : Descent}

/-- A run of a call that ends has ended as it does. -/
theorem Ends.of_run {α : Type} {x : Call α} {Q : Except ParseError α → Descent → Prop}
    (h : Ends x d Q) {r : Except ParseError α} (hrun : x d = some (r, d')) :
    Later d d' ∧ Q r d' := by
  obtain ⟨r', d'', hrun', hlater, hq⟩ := h
  obtain ⟨rfl, rfl⟩ := Prod.mk.inj (Option.some.inj (hrun'.symm.trans hrun))
  exact ⟨hlater, hq⟩

theorem nested_of_inside (h : Inside d o []) : Nested o [] d where
  consistent := h.consistent
  options := h.options
  groups := congrArg (·.1) h.counters
  containers := congrArg (·.2.1) h.counters
  groups_le := by
    have hgroups : d.groups.depth = 0 := congrArg (·.1) h.counters
    rw [hgroups]
    exact Nat.zero_le _
  containers_le := by
    have hcontainers : d.containers.depth = 0 := congrArg (·.2.1) h.counters
    rw [hcontainers]
    exact Nat.zero_le _

/-- One more activity that reads the inside of nothing. -/
theorem Nested.call {g : Activity} (h : Nested o stack d)
    (hg : g.readsContainer = false ∧ g.readsGroup = false) : Nested o (g :: stack) d where
  consistent := h.consistent
  options := h.options
  groups := by rw [h.groups, List.countP_cons_of_neg (by simp [hg.2])]
  containers := by rw [h.containers, List.countP_cons_of_neg (by simp [hg.1])]
  groups_le := h.groups_le
  containers_le := h.containers_le

theorem Nested.moved {α : Type} {x : Call α} {a : α} (h : Nested o stack d) (hx : IsRule x)
    (hrun : x d = some (.ok a, d')) : Nested o stack d' := by
  obtain ⟨hlater, hspent⟩ := (hx.spends h.consistent).of_run hrun
  obtain ⟨ts, huses, -⟩ := hspent a rfl
  have hgroups : d'.groups.depth = d.groups.depth := congrArg (·.1) huses.counters
  have hcontainers : d'.containers.depth = d.containers.depth :=
    congrArg (·.2.1) huses.counters
  exact
    { consistent := hlater.consistent
      options := hlater.options.trans h.options
      groups := hgroups.trans h.groups
      containers := hcontainers.trans h.containers
      groups_le := hgroups ▸ h.groups_le
      containers_le := hcontainers ▸ h.containers_le }

theorem Nested.container {g : Activity} {opened : Span} (h : Nested o stack d)
    (hg : g = .array ∨ g = .dictionary)
    (hrun : enterContainer opened d = some (.ok (), d')) : Nested o (g :: stack) d' := by
  obtain ⟨e, herror⟩ | ⟨henter, hle⟩ := enterContainer_cases d opened
  · exact absurd (herror.symm.trans hrun) (by simp)
  obtain ⟨-, rfl⟩ := Prod.mk.inj (Option.some.inj (henter.symm.trans hrun))
  have hreads : g.readsContainer = true ∧ g.readsGroup = false := by
    rcases hg with rfl | rfl <;> exact ⟨rfl, rfl⟩
  have hlimit : d.containers.limit = min o.maxNesting deepestNesting := by
    rw [h.consistent.containers, h.options]
    rfl
  exact
    { consistent := (later_withCounters h.consistent
        { d with containers := { d.containers with depth := d.containers.depth + 1 } }).consistent
      options := h.options
      groups := by
        rw [List.countP_cons_of_neg (by simp [hreads.2])]
        exact h.groups
      containers := by
        rw [List.countP_cons_of_pos hreads.1]
        exact congrArg (· + 1) h.containers
      groups_le := h.groups_le
      containers_le := hlimit ▸ hle }

theorem Nested.group {opened : Span} (h : Nested o stack d)
    (hrun : enterGroup opened d = some (.ok (), d')) : Nested o (.sectionItems :: stack) d' := by
  obtain ⟨e, herror⟩ | ⟨henter, hle⟩ := enterGroup_cases d opened
  · exact absurd (herror.symm.trans hrun) (by simp)
  obtain ⟨-, rfl⟩ := Prod.mk.inj (Option.some.inj (henter.symm.trans hrun))
  have hlimit : d.groups.limit = min o.maxNesting deepestNesting := by
    rw [h.consistent.groups, h.options]
    rfl
  exact
    { consistent := (later_withCounters h.consistent
        { d with groups := { d.groups with depth := d.groups.depth + 1 } }).consistent
      options := h.options
      groups := by
        rw [List.countP_cons_of_pos rfl]
        exact congrArg (· + 1) h.groups
      containers := by
        rw [List.countP_cons_of_neg (by decide)]
        exact h.containers
      groups_le := hlimit ▸ hle
      containers_le := h.containers_le }

theorem Nested.compatibility (h : Nested o stack d)
    (hrun : enterCompatibility d = some (.ok (), d')) : Nested o stack d' := by
  obtain ⟨-, rfl⟩ := Prod.mk.inj (Option.some.inj hrun)
  exact
    { consistent := (later_withCounters h.consistent
        { d with compatibility := d.compatibility + 1 }).consistent
      options := h.options
      groups := h.groups
      containers := h.containers
      groups_le := h.groups_le
      containers_le := h.containers_le }

variable {bytes : List UInt8} {log : ErrorLog}

/-- Nothing is open between two requests. -/
theorem Active.inside (h : Active o bytes log stack d) (hstack : stack = []) :
    Inside d o [] := by
  induction h with
  | start => exact inside_start o bytes log
  | @answered d d' r a h hrun ih =>
    have hinside := ih rfl
    obtain ⟨a', d'', hanswered⟩ := exists_answered (hinside.options ▸ hinside) r
    obtain ⟨-, rfl⟩ := Prod.mk.inj (Option.some.inj (hanswered.answer.symm.trans hrun))
    exact hinside.options ▸ hanswered.inside
  | request => exact absurd hstack (List.cons_ne_nil _ _)
  | call => exact absurd hstack (List.cons_ne_nil _ _)
  | container => exact absurd hstack (List.cons_ne_nil _ _)
  | compatibility => exact absurd hstack (List.cons_ne_nil _ _)
  | group => exact absurd hstack (List.cons_ne_nil _ _)
  | moved => exact absurd hstack (List.cons_ne_nil _ _)

/-- **Nesting**: in every state that can come up, as much is open as activities read, and
    no more than the options allow. -/
theorem Active.nested (h : Active o bytes log stack d) : Nested o stack d := by
  induction h with
  | start => exact nested_of_inside (inside_start o bytes log)
  | answered h hrun _ => exact nested_of_inside ((Active.answered h hrun).inside rfl)
  | request h ih => exact ih.call ⟨rfl, rfl⟩
  | call h hg ih => exact ih.call (Activity.not_reads_of_mem_calls hg)
  | container h hg hrun ih => exact ih.container hg hrun
  | compatibility h hrun ih => exact ih.compatibility hrun
  | group h hrun ih => exact ih.group hrun
  | moved h hx hrun ih => exact ih.moved hx hrun

end Nesting

end Descent

end PageContent
