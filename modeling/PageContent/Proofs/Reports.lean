import PageContent.Proofs.Filtering
import PageContent.Proofs.Sessions
import Mathlib.Algebra.GroupWithZero.Nat

/-! # What a report says

    A report is gathered event by event in a walk through a tree. What it says is
    told by the tree itself.

    * **Tallies**: a usage is sorted, and has every keyword with the number of its
      occurrences. Counting one more occurrence keeps it so.
    * **Walks**: the events of a tree add its leaves to the statistics, and to the
      greatest depth how deep its groups nest. The depth is the same afterwards as it
      was before.
    * **Reports**: a report describes the stream that has been parsed, or has the one
      error that a reader of the stream reports.
-/

namespace PageContent

/-! ## Tallies -/

/-- The keywords with the number of their occurrences. -/
structure Usage.Tallies (u : Usage) (keywords : List String) : Prop where
  sorted : (u.map (·.1)).Pairwise (· < ·)
  lookup : ∀ k, u.lookup k = if k ∈ keywords then some (keywords.count k) else none
  total : (u.map (·.2)).sum = keywords.length

namespace Usage

variable {u : Usage} {k : String}

theorem lookup_cons_eq_ite (k' k₀ : String) (n : Nat) (rest : Usage) :
    List.lookup k' ((k₀, n) :: rest) = if k' = k₀ then some n else rest.lookup k' := by
  by_cases h : k' = k₀
  · simp [h]
  · rw [List.lookup_cons, beq_false_of_ne h, if_neg h]

/-- A keyword before all others of a usage is none of them. -/
theorem lookup_eq_none_of_lt (h : ∀ k' ∈ u.map (·.1), k < k') : u.lookup k = none := by
  rw [List.lookup_eq_none_iff]
  intro p hp
  have hlt := h p.1 (List.mem_map_of_mem hp)
  exact bne_iff_ne.mpr fun heq => String.lt_irrefl _ (heq ▸ hlt)

/-- Counting adds one keyword at most. -/
theorem mem_keys_count {k' : String} (h : k' ∈ (u.count k).map (·.1)) :
    k' = k ∨ k' ∈ u.map (·.1) := by
  fun_induction count k u with
  | case1 => exact .inl (List.mem_singleton.mp h)
  | case2 n rest => exact .inr h
  | case3 k₀ n rest hne hlt => exact List.mem_cons.mp h
  | case4 k₀ n rest hne hlt ih =>
    rcases List.mem_cons.mp h with rfl | h
    · exact .inr List.mem_cons_self
    · exact (ih h).imp_right (List.mem_cons_of_mem _)

theorem sorted_count (h : (u.map (·.1)).Pairwise (· < ·)) :
    ((u.count k).map (·.1)).Pairwise (· < ·) := by
  fun_induction count k u with
  | case1 => exact List.pairwise_singleton _ _
  | case2 n rest => exact h
  | case3 k₀ n rest hne hlt =>
    refine List.Pairwise.cons ?_ h
    intro k' hk'
    rcases List.mem_cons.mp hk' with rfl | hk'
    · exact hlt
    · exact String.lt_trans hlt (List.rel_of_pairwise_cons h hk')
  | case4 k₀ n rest hne hlt ih =>
    refine List.Pairwise.cons ?_ (ih (List.Pairwise.of_cons h))
    intro k' hk'
    rcases mem_keys_count hk' with rfl | hk'
    · exact Std.lt_of_le_of_ne (String.not_lt.mp hlt) (Ne.symm hne)
    · exact List.rel_of_pairwise_cons h hk'

theorem lookup_count (h : (u.map (·.1)).Pairwise (· < ·)) (k' : String) :
    (u.count k).lookup k' =
      if k' = k then some ((u.lookup k).getD 0 + 1) else u.lookup k' := by
  fun_induction count k u with
  | case1 => exact lookup_cons_eq_ite k' k 1 []
  | case2 n rest =>
    simp only [lookup_cons_eq_ite]
    split <;> simp
  | case3 k₀ n rest hne hlt =>
    -- the keyword is not among those that come after it
    have hnone : List.lookup k ((k₀, n) :: rest) = none := by
      refine lookup_eq_none_of_lt ?_
      intro k'' hk''
      rcases List.mem_cons.mp hk'' with rfl | hk''
      · exact hlt
      · exact String.lt_trans hlt (List.rel_of_pairwise_cons h hk'')
    rw [lookup_cons_eq_ite, hnone]
    rfl
  | case4 k₀ n rest hne hlt ih =>
    have ih := ih (List.Pairwise.of_cons h)
    simp only [lookup_cons_eq_ite, ih, if_neg hne]
    by_cases heq : k' = k
    · subst heq
      simp [hne]
    · simp [heq]

theorem total_count : ((u.count k).map (·.2)).sum = (u.map (·.2)).sum + 1 := by
  fun_induction count k u with
  | case1 => rfl
  | case2 n rest => simp only [List.map_cons, List.sum_cons]; omega
  | case3 k₀ n rest hne hlt => simp only [List.map_cons, List.sum_cons]; omega
  | case4 k₀ n rest hne hlt ih => simp only [List.map_cons, List.sum_cons, ih]; omega

theorem Tallies.nil : Tallies [] [] :=
  ⟨List.Pairwise.nil, fun _ => rfl, rfl⟩

/-- One more occurrence of a keyword. -/
theorem Tallies.count {keywords : List String} (h : u.Tallies keywords) (k : String) :
    (u.count k).Tallies (keywords ++ [k]) where
  sorted := sorted_count h.sorted
  lookup k' := by
    rw [lookup_count h.sorted, h.lookup, h.lookup, List.count_append]
    by_cases heq : k' = k
    · subst heq
      by_cases hmem : k' ∈ keywords
      · simp [hmem]
      · simp [hmem, List.count_eq_zero_of_not_mem hmem]
    · simp [heq, List.count_eq_zero_of_not_mem]
  total := by
    rw [total_count, h.total, List.length_append]
    rfl

theorem Tallies.foldl {keywords : List String} (h : u.Tallies keywords) (ks : List String) :
    (ks.foldl (fun u k => u.count k) u).Tallies (keywords ++ ks) := by
  induction ks generalizing u keywords with
  | nil => simpa using h
  | cons k ks ih => simpa using ih (h.count k)

end Usage

/-! ## Walks -/

namespace Statistics

/-- The statistics with some invocations and some nested groups added to them. -/
def add (s : Statistics) (calls : List Invocation) (nesting : Nat) : Statistics where
  operators := s.operators + calls.length
  undefined := s.undefined + calls.countP (·.production = .unknownOperator)
  usage := (calls.map (·.keyword)).foldl (fun u k => u.count k) s.usage
  depth := s.depth
  maxDepth := max s.maxDepth (s.depth + nesting)

theorem add_add (s : Statistics) (calls others : List Invocation) (m n : Nat) :
    (s.add calls m).add others n = s.add (calls ++ others) (max m n) := by
  simp only [add, List.length_append, List.countP_append, List.map_append, List.foldl_append,
    mk.injEq, true_and]
  omega

mutual

/-- The walk through a tree adds its leaves and its nesting. -/
theorem foldl_note_walk (n : Node) (s : Statistics) (hs : s.depth ≤ s.maxDepth) :
    n.walk.foldl note s = s.add n.leaves n.nesting := by
  match n with
  | .invocation call =>
    simp [Node.walk, Node.leaves, Node.nesting, note, add, List.countP_cons, hs]
  | .group p cs place =>
    simp only [Node.walk, List.foldl_cons, List.foldl_append, List.foldl_nil]
    by_cases hp : isNesting p
    · -- the children are walked through one level deeper
      have hdeeper : s.depth + 1 ≤ max s.maxDepth (s.depth + 1) := Nat.le_max_right _ _
      rw [foldl_note_walkAll cs _ (by simpa only [note, hp, if_true] using hdeeper)]
      simp only [note, add, hp, if_true, Node.leaves, Node.nesting, mk.injEq, true_and]
      omega
    · rw [foldl_note_walkAll cs _ (by simpa [note, hp] using hs)]
      simp [note, add, hp, Node.leaves, Node.nesting]

theorem foldl_note_walkAll (cs : List Node) (s : Statistics) (hs : s.depth ≤ s.maxDepth) :
    (Node.walkAll cs).foldl note s = s.add (Node.leavesAll cs) (Node.nestingAll cs) := by
  match cs with
  | [] => simp [Node.walkAll, Node.leavesAll, Node.nestingAll, add, hs]
  | c :: cs =>
    have hs' : (s.add c.leaves c.nesting).depth ≤ (s.add c.leaves c.nesting).maxDepth :=
      Nat.le_trans hs (Nat.le_max_left _ _)
    rw [Node.walkAll, List.foldl_append, foldl_note_walk c s hs, foldl_note_walkAll cs _ hs',
      add_add]
    rfl

end

/-- The statistics of a stream are told by its tree. -/
theorem ofStream_eq (s : ContentStream) :
    ofStream s = empty.add s.invocations s.root.nesting := by
  unfold ofStream ContentStream.walk ContentStream.invocations
  rw [foldl_note_walk _ _ (Nat.le_refl _), Node.invocations_eq_leaves]

end Statistics

/-! ## Reports -/

namespace StreamReport

/-- What a report on a stream that has been parsed says. -/
structure Describes (r : StreamReport) (threshold : Nat) (s : ContentStream) : Prop where
  errors : r.errors = []
  operatorCount : r.operatorCount = s.operatorCount
  usage : r.usage.Tallies (s.invocations.map (·.keyword))
  maxNesting : r.maxNesting = s.root.nesting
  /-- Undefined operators come before deep nesting. -/
  warnings : r.warnings =
    (if ∃ call ∈ s.invocations, call.production = .unknownOperator then
      [(Warning.undefinedOperators
        (s.invocations.countP (·.production = .unknownOperator))).text]
    else []) ++
    (if threshold < s.root.nesting then
      [(Warning.deepNesting s.root.nesting threshold).text]
    else [])

theorem describes_ofResult (threshold : Nat) (s : ContentStream) :
    (ofResult threshold (.ok s)).Describes threshold s := by
  have hcount : 0 < s.invocations.countP (·.production = .unknownOperator) ↔
      ∃ call ∈ s.invocations, call.production = .unknownOperator := by
    simp [List.countP_pos_iff]
  unfold ofResult
  simp only [Statistics.ofStream_eq]
  constructor
  case errors => rfl
  case operatorCount => exact Nat.zero_add _
  case usage => exact Usage.Tallies.nil.foldl _
  case maxNesting => simp [Statistics.add, Statistics.empty]
  case warnings =>
    simp only [warningsOf, Statistics.add, Statistics.empty, Nat.zero_add, Nat.zero_max, hcount,
      List.map_append]
    congr 1 <;> split <;> rfl

/-- The errors of a report are what reading the stream reports to a new log. -/
theorem errors_ofBytes (o : Options) (threshold : Nat) (bytes : List UInt8) :
    (ofBytes o threshold bytes).errors =
      ((Session.start o bytes .empty).answer (.part .content)).2.log.errors.map (·.message) := by
  unfold ofBytes ContentStream.parse Session.answer Session.find Session.start
  simp only
  split <;> simp_all [ofResult, ErrorLog.empty]

open Descent in
/-- **Reports**: a stream that cannot be parsed is reported with its error and with
    nothing else. The report on any other stream has no error. It has the number of its
    operators, every keyword with the number of its occurrences, how deep its groups
    nest, which no options let be more than the limit, and a warning if there is an
    undefined operator and one if the groups nest deeper than the threshold. In both
    cases recursive descent reports to a new log exactly the errors of the report. -/
theorem ofBytes_describes (o : Options) (threshold : Nat) (bytes : List UInt8) :
    (match ContentStream.parse o bytes with
      | .error e => ofBytes o threshold bytes = ⟨[e.message], [], 0, [], 0⟩
      | .ok s => (ofBytes o threshold bytes).Describes threshold s ∧
        (ofBytes o threshold bytes).maxNesting ≤ min o.maxNesting deepestNesting) ∧
    ∃ a d, Descent.answer (.part .content) (start o bytes .empty) = some (a, d) ∧
      (ofBytes o threshold bytes).errors = d.log.errors.map (·.message) := by
  constructor
  · unfold ofBytes
    cases hparse : ContentStream.parse o bytes with
    | error e => rfl
    | ok s =>
      have hdescribes := describes_ofResult threshold s
      refine ⟨hdescribes, ?_⟩
      have hnesting := (ContentStream.passes_of_parse hparse).nesting
      rw [hdescribes.maxNesting]
      simpa [Node.nestingAll, Options.nestingLimit] using hnesting
  · obtain ⟨a, d, hanswered⟩ := exists_answered (inside_start o bytes .empty) (.part .content)
    refine ⟨a, d, hanswered.answer, ?_⟩
    have hsession : (Session.start o bytes .empty).answer (.part .content) = (a, d.session) :=
      hanswered.session
    rw [errors_ofBytes, hsession]
    rfl

end StreamReport

end PageContent
