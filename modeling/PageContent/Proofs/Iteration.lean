import PageContent.Proofs.Leaves

/-! # Iterating over a tree and walking through it

    The cursor, which keeps a stack of levels, agrees with the recursive walk:
    it gives what the walk visits, and takes a turn for each event of the walk.
    Counting and writing a tree therefore depend on its leaves alone.

    Main statement: `Node.iterates_as_walked`.
-/

namespace PageContent

namespace Node

/-! ## The walk -/

theorem walkAll_eq_flatMap (cs : List Node) : walkAll cs = cs.flatMap walk := by
  induction cs with
  | nil => rfl
  | cons c cs ih => rw [walkAll, ih, List.flatMap_cons]

mutual

/-- A walk visits the leaves. -/
theorem visits_walk : ∀ n : Node, n.walk.filterMap Event.call? = n.leaves
  | .invocation _ => rfl
  | .group p cs s => by
    have hcs := visits_walkAll cs
    simp only [walk, leaves, List.filterMap_append, List.filterMap_cons, List.filterMap_nil,
      Event.call?, hcs, List.append_nil]

theorem visits_walkAll : ∀ cs : List Node, (walkAll cs).filterMap Event.call? = leavesAll cs
  | [] => rfl
  | c :: cs => by
    rw [walkAll, List.filterMap_append, visits_walk c, visits_walkAll cs, leavesAll]

end

/-! ## Serialisation -/

theorem writeInvocations_eq_intercalate (calls : List Invocation) :
    writeInvocations calls = [Byte.ofChar ' '].intercalate (calls.map Invocation.write) := by
  induction calls with
  | nil => rfl
  | cons call calls ih =>
    cases calls with
    | nil => simp [writeInvocations]
    | cons call' calls =>
      rw [writeInvocations, ih, List.map_cons, List.map_cons, List.map_cons,
        List.intercalate_cons_cons]
      simp

/-- The cursor agrees with the walk on every group: it comes to its end after one
    turn for each event that follows the first, and gives what the walk visits.
    The count, the bytes and the events of a stream are therefore those of the
    leaves of its root. -/
theorem iterates_as_walked (p : Production) (cs : List Node) (s : Span) :
    let g := Node.group p cs s
    let stream : ContentStream := ⟨g⟩
    (∀ turns calls, g.cursor.Turns turns calls ⟨[]⟩ ↔
      calls = g.walk.filterMap Event.call? ∧ turns + 1 = g.walk.length) ∧
    g.invocations = g.walk.filterMap Event.call? ∧
    g.walk.filterMap Event.call? = g.leaves ∧
    stream.operatorCount = g.leaves.length ∧
    g.write = [Byte.ofChar ' '].intercalate (g.leaves.map Invocation.write) ∧
    stream.write = g.write ∧
    stream.walk = .enter p s :: (cs.flatMap walk ++ [.leave p]) ∧
    stream.walk = g.walk := by
  intro g stream
  have hinvocations : g.invocations = g.leaves := invocations_eq_leaves g
  have hvisits : g.walk.filterMap Event.call? = g.leaves := visits_walk g
  refine ⟨fun turns calls => ?_, by rw [hinvocations, hvisits], hvisits, ?_, ?_, rfl, ?_, rfl⟩
  · have hleaves : g.cursor.leaves = g.leaves := by
      rw [← Cursor.toList_eq_leaves]
      exact hinvocations
    have hpending : g.cursor.pending + 1 = g.walk.length := by
      simp [g, cursor, Cursor.pending, walk]
    rw [Cursor.turns_iff, hleaves, hvisits]
    exact and_congr_right fun _ => by omega
  · show g.invocations.length = _
    rw [hinvocations]
  · rw [← writeInvocations_eq_intercalate, ← hinvocations]
    rfl
  · rw [← walkAll_eq_flatMap]
    rfl

end Node

end PageContent
