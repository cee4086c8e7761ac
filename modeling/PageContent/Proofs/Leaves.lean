import PageContent.Tree.Walk

/-! # The leaves of a tree

    The invocations of a tree by plain recursion. The cursor keeps a stack of
    levels instead. It looks at its innermost level, and in each turn it leaves a
    level that is used up, gives an invocation or enters a group.

    * **Turn**: what one turn does to the stack, and what it gives.
    * **Pending**: the number of turns that are still to be done. Each turn
      takes exactly one off, so that every iteration comes to its end.
    * **Leaves**: the invariant of a run. What has been given and the leaves of
      the stack are together the leaves that were there at first.

    Main statement: `Node.invocations_eq_leaves`.
-/

namespace PageContent

namespace Node

mutual

/-- The invocations of a tree, in document order. -/
def leaves : Node → List Invocation
  | invocation call => [call]
  | group _ cs _ => leavesAll cs

def leavesAll : List Node → List Invocation
  | [] => []
  | c :: cs => c.leaves ++ leavesAll cs

end

theorem leavesAll_append (cs ds : List Node) :
    leavesAll (cs ++ ds) = leavesAll cs ++ leavesAll ds := by
  induction cs with
  | nil => rfl
  | cons c cs ih => simp [leavesAll, ih]

theorem leavesAll_invocations (calls : List Invocation) :
    leavesAll (calls.map .invocation) = calls := by
  induction calls with
  | nil => rfl
  | cons call calls ih => simp [leavesAll, leaves, ih]

theorem leaves_ofChildren (p : Production) (cs : List Node) :
    (ofChildren p cs).leaves = leavesAll cs :=
  rfl

end Node

namespace Cursor

/-- The leaves that are still to come. -/
def leaves (c : Cursor) : List Invocation :=
  c.levels.flatMap Node.leavesAll

/-! ## Turns of the loop -/

/-- One turn, with the invocation that it gives. -/
inductive Turn : Cursor → Option Invocation → Cursor → Prop
  | leave (outer : List (List Node)) :
      Turn ⟨[] :: outer⟩ none ⟨outer⟩
  | give (call : Invocation) (nodes : List Node) (outer : List (List Node)) :
      Turn ⟨(.invocation call :: nodes) :: outer⟩ (some call) ⟨nodes :: outer⟩
  | enter (p : Production) (cs : List Node) (s : Span) (nodes : List Node)
      (outer : List (List Node)) :
      Turn ⟨(.group p cs s :: nodes) :: outer⟩ none ⟨cs :: nodes :: outer⟩

/-- A number of turns in a row, with all invocations that they give. -/
inductive Turns : Cursor → Nat → List Invocation → Cursor → Prop
  | none (c : Cursor) : Turns c 0 [] c
  | more {c c' c'' : Cursor} {given : Option Invocation} {n : Nat} {calls : List Invocation} :
      Turn c given c' → Turns c' n calls c'' → Turns c (n + 1) (given.toList ++ calls) c''

/-- The turns that are still to be done: one for each event of a walk through
    the nodes, and one to leave each level. -/
def pending (c : Cursor) : Nat :=
  c.levels.foldr (fun nodes rest => (Node.walkAll nodes).length + 1 + rest) 0

@[simp] theorem leaves_nil : leaves ⟨[]⟩ = [] := rfl

@[simp] theorem pending_nil : pending ⟨[]⟩ = 0 := rfl

/-- The next invocation is the one that the next turn gives, or is found after it. -/
theorem next?_of_turn {c c' : Cursor} {given : Option Invocation} (h : Turn c given c') :
    c.next? = given.elim c'.next? fun call => some (call, c') := by
  cases h <;> rw [next?] <;> rfl

theorem toList_eq_elim (c : Cursor) :
    c.toList = c.next?.elim [] fun next => next.1 :: next.2.toList := by
  rw [toList]
  split <;> simp [*]

/-- So a turn takes what it gives from the list of all invocations to come. -/
theorem toList_of_turn {c c' : Cursor} {given : Option Invocation} (h : Turn c given c') :
    c.toList = given.toList ++ c'.toList := by
  rw [toList_eq_elim c, next?_of_turn h]
  cases given with
  | none => exact (toList_eq_elim c').symm
  | some call => rfl

theorem exists_turn (nodes : List Node) (outer : List (List Node)) :
    ∃ given c', Turn ⟨nodes :: outer⟩ given c' := by
  match nodes with
  | [] => exact ⟨_, _, .leave outer⟩
  | .invocation call :: nodes => exact ⟨_, _, .give call nodes outer⟩
  | .group p cs s :: nodes => exact ⟨_, _, .enter p cs s nodes outer⟩

theorem leaves_of_turn {c c' : Cursor} {given : Option Invocation} (h : Turn c given c') :
    c.leaves = given.toList ++ c'.leaves := by
  cases h <;> simp [leaves, Node.leavesAll, Node.leaves]

theorem pending_of_turn {c c' : Cursor} {given : Option Invocation} (h : Turn c given c') :
    c.pending = c'.pending + 1 := by
  cases h <;> simp [pending, Node.walkAll, Node.walk] <;> omega

/-! ## Whole iterations -/

/-- The invariant of a run: where each turn takes what it gives from the front of
    a list, a run takes all of its calls from there, in order. -/
theorem eq_append_of_turns {f : Cursor → List Invocation}
    (hstep : ∀ {c c' : Cursor} {given : Option Invocation},
      Turn c given c' → f c = given.toList ++ f c')
    {c c' : Cursor} {n : Nat} {calls : List Invocation} (h : Turns c n calls c') :
    f c = calls ++ f c' := by
  induction h with
  | none => rfl
  | more hturn _ ih => rw [hstep hturn, ih, List.append_assoc]

theorem pending_of_turns {c c' : Cursor} {n : Nat} {calls : List Invocation}
    (h : Turns c n calls c') : c.pending = c'.pending + n := by
  induction h with
  | none => rfl
  | more hturn _ ih => rw [pending_of_turn hturn, ih, Nat.add_assoc]

/-- Every iteration comes to its end. -/
theorem exists_turns (c : Cursor) : ∃ n calls, Turns c n calls ⟨[]⟩ := by
  induction hp : c.pending generalizing c with
  | zero =>
    obtain ⟨_ | ⟨nodes, outer⟩⟩ := c
    · exact ⟨0, [], .none _⟩
    · simp [pending] at hp
  | succ k ih =>
    obtain ⟨_ | ⟨nodes, outer⟩⟩ := c
    · simp [pending] at hp
    · obtain ⟨given, c', hturn⟩ := exists_turn nodes outer
      have hpending := pending_of_turn hturn
      obtain ⟨n, calls, hturns⟩ := ih c' (by omega)
      exact ⟨n + 1, given.toList ++ calls, .more hturn hturns⟩

theorem turns_iff (c : Cursor) (n : Nat) (calls : List Invocation) :
    Turns c n calls ⟨[]⟩ ↔ calls = c.leaves ∧ n = c.pending := by
  -- the invariants of a run fix its calls and its length
  have hends {n : Nat} {calls : List Invocation} (h : Turns c n calls ⟨[]⟩) :
      calls = c.leaves ∧ n = c.pending := by
    have hleaves := eq_append_of_turns leaves_of_turn h
    have hpending := pending_of_turns h
    rw [leaves_nil, List.append_nil] at hleaves
    rw [pending_nil, Nat.zero_add] at hpending
    exact ⟨hleaves.symm, hpending.symm⟩
  refine ⟨hends, ?_⟩
  rintro ⟨rfl, rfl⟩
  obtain ⟨n, calls, hturns⟩ := exists_turns c
  obtain ⟨rfl, rfl⟩ := hends hturns
  exact hturns

theorem toList_eq_leaves (c : Cursor) : c.toList = c.leaves := by
  have hturns := (turns_iff c _ _).mpr ⟨rfl, rfl⟩
  have hend : toList ⟨[]⟩ = [] := by rw [toList_eq_elim, next?]; rfl
  rw [eq_append_of_turns toList_of_turn hturns, hend, List.append_nil]

end Cursor

namespace Node

/-- The iterative walk and the recursive one meet the same invocations. -/
theorem invocations_eq_leaves (n : Node) : n.invocations = n.leaves := by
  unfold invocations
  rw [Cursor.toList_eq_leaves]
  cases n with
  | invocation call => rfl
  | group p cs s => simp [cursor, Cursor.leaves, leaves]

end Node

end PageContent
