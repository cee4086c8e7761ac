import PageContent.Batch
import Mathlib.Algebra.GroupWithZero.Nat

/-! # Batches, whatever the workers do

    A batch accounts for its streams as if they were validated one by one. How
    many workers there are, and in which order they finish, makes no difference.

    * **Chunks**: the place of a stream in its chunk, together with the place of
      the chunk, is its place in the batch.
    * **Deliveries**: every worker delivers once, in any order and after any
      time. Put together by the numbers of the workers, the outcomes are in the
      order of the streams.
    * **Accounts**: what a batch outcome says about its streams as a whole.
-/

namespace PageContent

/-! ## Outcomes without durations -/

/-- The same outcome as if it had taken no time. -/
def StreamOutcome.untimed (r : StreamOutcome) : StreamOutcome :=
  { r with duration := ⟨0⟩ }

namespace Batch

/-! ## Chunks -/

/-- Numbering within chunks of one size, the chunks themselves being numbered from
    `first` on, is numbering from `first * size` on. -/
theorem flatten_mapIdx_chunks {α β : Type} {size : Nat} (hsize : 0 < size) (f : Nat → α → β)
    (first : Nat) (xs : List α) :
    ((chunks size xs).mapIdx fun k chunk =>
        chunk.mapIdx fun i x => f ((first + k) * size + i) x).flatten =
      xs.mapIdx fun i x => f (first * size + i) x := by
  -- the chunks after the first one are numbered from `first + 1` on
  fun_induction chunks size xs generalizing first with
  | case1 => rfl
  | case2 x rest ih =>
    have hothers : ((chunks size (rest.drop (size - 1))).mapIdx fun k chunk =>
        chunk.mapIdx fun i y => f ((first + (k + 1)) * size + i) y).flatten =
        (rest.drop (size - 1)).mapIdx fun i y => f ((first + 1) * size + i) y := by
      rw [← ih (first + 1)]
      simp only [Nat.add_assoc, Nat.add_comm 1]
    have hlist : x :: rest = (x :: rest.take (size - 1)) ++ rest.drop (size - 1) := by
      rw [List.cons_append, List.take_append_drop]
    rw [List.mapIdx_cons, List.flatten_cons, hothers, Nat.add_zero]
    conv => rhs; rw [hlist, List.mapIdx_append]
    congr 1
    apply List.mapIdx_eq_mapIdx_iff.mpr
    intro i hi
    -- another chunk only follows a full one
    have hfull : (x :: rest.take (size - 1)).length = size := by
      simp only [List.length_drop] at hi
      simp only [List.length_cons, List.length_take]
      omega
    rw [hfull, Nat.succ_mul, Nat.add_assoc, Nat.add_comm i]

/-- Chunks are not empty unless there is nothing to validate. -/
theorem chunkSize_pos (parallelism : Nat) {n : Nat} (hn : 0 < n) :
    0 < chunkSize parallelism n := by
  have hworkers : 0 < workers parallelism n := by
    unfold workers
    omega
  unfold chunkSize
  apply Nat.div_pos
  · omega
  · exact hworkers

/-- The outcomes of all workers, in the order of their numbers, are those of the streams. -/
theorem flatMap_deliveries (b : BatchOptions) (streams : List (List UInt8)) :
    (deliveries b streams).flatMap (·.2) =
      streams.mapIdx fun i bytes => ⟨i, ContentStream.parse b.options bytes, ⟨0⟩⟩ := by
  match streams with
  | [] =>
    rw [show deliveries b [] = [] by simp [deliveries, chunks]]
    rfl
  | bytes :: others =>
    have hsize := chunkSize_pos b.parallelism (Nat.succ_pos others.length)
    have hall := flatten_mapIdx_chunks hsize
      (fun i bytes => (⟨i, ContentStream.parse b.options bytes, ⟨0⟩⟩ : StreamOutcome)) 0
      (bytes :: others)
    simp only [Nat.zero_add, Nat.zero_mul] at hall
    rw [← hall, List.flatMap_def]
    congr 1
    apply List.ext_getElem?
    intro k
    simp only [deliveries, validateChunk, List.getElem?_map, List.getElem?_mapIdx,
      List.length_cons, Option.map_map]
    rfl

/-! ## Deliveries -/

/-- What the workers deliver if none of them panics: each delivers its chunk, in any
    order and after any time. -/
def Delivers (b : BatchOptions) (streams : List (List UInt8))
    (delivered : List (Nat × List StreamOutcome)) : Prop :=
  (delivered.map fun d => (d.1, d.2.map StreamOutcome.untimed)).Perm (deliveries b streams)

/-- Workers may finish in the order of their numbers, at once. -/
theorem delivers_deliveries (b : BatchOptions) (streams : List (List UInt8)) :
    Delivers b streams (deliveries b streams) := by
  have hsame : (deliveries b streams).map (fun d => (d.1, d.2.map StreamOutcome.untimed)) =
      deliveries b streams := by
    apply List.ext_getElem?
    intro k
    rw [List.getElem?_map]
    simp only [deliveries, List.getElem?_mapIdx, Option.map_map]
    congr 1
    funext chunk
    simp [validateChunk, List.mapIdx_eq_zipIdx_map, StreamOutcome.untimed, Function.comp_def]
  exact List.Perm.of_eq hsame

/-- The workers are numbered from zero on. -/
theorem map_fst_deliveries (b : BatchOptions) (streams : List (List UInt8)) :
    (deliveries b streams).map (·.1) = List.range (deliveries b streams).length := by
  apply List.ext_getElem
  · simp
  · intro k hk hk'
    simp [deliveries]

/-- A key that occurs once is found with its value. -/
theorem lookup_of_mem {α : Type} {entries : List (Nat × α)}
    (hnodup : (entries.map (·.1)).Nodup) {k : Nat} {x : α} (h : (k, x) ∈ entries) :
    entries.lookup k = some x := by
  obtain ⟨before, after, rfl⟩ := List.append_of_mem h
  apply List.lookup_eq_some_iff.mpr
  refine ⟨before, after, rfl, ?_⟩
  intro d hd
  rw [bne_iff_ne]
  intro heq
  rw [List.map_append, List.map_cons] at hnodup
  have hdisjoint := (List.nodup_append.mp hnodup).2.2
  exact hdisjoint d.1 (List.mem_map_of_mem hd) k (by simp) heq.symm

/-- Each worker is found among those that have delivered, with the outcomes of its
    chunk. -/
theorem exists_of_delivers {b : BatchOptions} {streams : List (List UInt8)}
    {delivered : List (Nat × List StreamOutcome)} (h : Delivers b streams delivered)
    {d : Nat × List StreamOutcome} (hd : d ∈ deliveries b streams) :
    ∃ outcomes, delivered.lookup d.1 = some outcomes ∧
      outcomes.map StreamOutcome.untimed = d.2 := by
  have hkeys : (delivered.map (·.1)).Perm (List.range (deliveries b streams).length) := by
    have hmap := h.map (·.1)
    rw [List.map_map, map_fst_deliveries] at hmap
    exact hmap
  have hnodup : (delivered.map (·.1)).Nodup := hkeys.nodup_iff.mpr List.nodup_range
  obtain ⟨⟨worker, outcomes⟩, hmem, heq⟩ := List.mem_map.mp (h.mem_iff.mpr hd)
  obtain rfl := heq
  exact ⟨outcomes, lookup_of_mem hnodup hmem, rfl⟩

/-- If all workers are found, their outcomes are put together in the order of their
    numbers. -/
theorem join_eq_ok {delivered expected : List (Nat × List StreamOutcome)}
    (h : ∀ d ∈ expected, ∃ outcomes, delivered.lookup d.1 = some outcomes ∧
      outcomes.map StreamOutcome.untimed = d.2) :
    ∃ results, join delivered (expected.map (·.1)) = .ok results ∧
      results.map StreamOutcome.untimed = expected.flatMap (·.2) := by
  induction expected with
  | nil => exact ⟨[], rfl, rfl⟩
  | cons d others ih =>
    obtain ⟨outcomes, hlookup, huntimed⟩ := h d (by simp)
    obtain ⟨results, hjoin, hresults⟩ := ih fun d' hd' => h d' (by simp [hd'])
    refine ⟨outcomes ++ results, ?_, ?_⟩
    · simp only [List.map_cons, join, hlookup, hjoin]
    · rw [List.map_append, huntimed, hresults, List.flatMap_cons]

/-- Whoever finishes first, the outcomes are in the order of the streams. -/
theorem join_of_delivers {b : BatchOptions} {streams : List (List UInt8)}
    {delivered : List (Nat × List StreamOutcome)} (h : Delivers b streams delivered) :
    ∃ results, join delivered (List.range delivered.length) = .ok results ∧
      results.map StreamOutcome.untimed =
        streams.mapIdx fun i bytes => ⟨i, ContentStream.parse b.options bytes, ⟨0⟩⟩ := by
  have hlength : delivered.length = (deliveries b streams).length := by
    have := h.length_eq
    rwa [List.length_map] at this
  rw [← flatMap_deliveries, hlength, ← map_fst_deliveries]
  apply join_eq_ok
  intro d hd
  exact exists_of_delivers h hd

end Batch

/-! ## Accounts -/

/-- The operators of a stream, none if it is rejected. -/
def ContentStream.operatorsIn (o : Options) (bytes : List UInt8) : Nat :=
  match ContentStream.parse o bytes with
  | .ok s => s.operatorCount
  | .error _ => 0

namespace BatchOutcome

/-- There is one result for each stream, in order: its number, and what becomes of it
    alone. Durations are left aside. -/
def Answers (o : Options) (streams : List (List UInt8)) (b : BatchOutcome) : Prop :=
  b.results.map StreamOutcome.untimed =
    streams.mapIdx fun i bytes => ⟨i, ContentStream.parse o bytes, ⟨0⟩⟩

/-- The outcome accounts for some streams that are read under some options. -/
structure AccountsFor (o : Options) (streams : List (List UInt8)) (b : BatchOutcome) :
    Prop where
  results : b.Answers o streams
  total : b.total = streams.length
  counted : b.successful + b.failed = b.total
  /-- The first failure is the rejected stream with the least number, with its error. -/
  firstFailure : ∀ i e, b.firstFailure? = some (i, e) ↔
    (∃ bytes, streams[i]? = some bytes ∧ ContentStream.parse o bytes = .error e) ∧
      ∀ j < i, ∀ bytes, streams[j]? = some bytes → ∃ s, ContentStream.parse o bytes = .ok s
  noFailure : b.firstFailure? = none ↔ b.isValid = true
  operators : b.operatorCount = (streams.map (ContentStream.operatorsIn o)).sum

variable {o : Options} {streams : List (List UInt8)} {b : BatchOutcome}

/-- A result and its stream are at the same place. -/
theorem Answers.getElem?_iff (h : Answers o streams b) {i : Nat} :
    (∀ r, b.results[i]? = some r → ∃ bytes, streams[i]? = some bytes ∧ r.index = i ∧
      r.result = ContentStream.parse o bytes) ∧
    (∀ bytes, streams[i]? = some bytes → ∃ r, b.results[i]? = some r ∧ r.index = i ∧
      r.result = ContentStream.parse o bytes) := by
  have hplace := congrArg (·[i]?) h
  simp only [List.getElem?_map, List.getElem?_mapIdx] at hplace
  constructor
  · intro r hr
    rw [hr] at hplace
    obtain ⟨bytes, hbytes, heq⟩ := Option.map_eq_some_iff.mp hplace.symm
    obtain ⟨hindex, hresult, -⟩ := StreamOutcome.mk.inj heq
    exact ⟨bytes, hbytes, hindex.symm, hresult.symm⟩
  · intro bytes hbytes
    rw [hbytes] at hplace
    obtain ⟨r, hr, heq⟩ := Option.map_eq_some_iff.mp hplace
    obtain ⟨hindex, hresult, -⟩ := StreamOutcome.mk.inj heq
    exact ⟨r, hr, hindex, hresult⟩

theorem Answers.total_eq (h : Answers o streams b) : b.total = streams.length := by
  have hlength := congrArg List.length h
  rwa [List.length_map, List.length_mapIdx] at hlength

/-- No more results are valid than there are. -/
theorem successful_add_failed (b : BatchOutcome) : b.successful + b.failed = b.total := by
  have hle : b.successful ≤ b.total := List.countP_le_length
  unfold failed
  omega

/-- What is found first is found at the least place. -/
theorem findSome?_eq_some_iff_getElem? {α β : Type} {f : α → Option β} {xs : List α} {y : β} :
    xs.findSome? f = some y ↔
      ∃ (i : Nat) (x : α), xs[i]? = some x ∧ f x = some y ∧ ∀ j < i, ∀ x', xs[j]? = some x' → f x' = none := by
  rw [List.findSome?_eq_some_iff]
  constructor
  · intro hsplit
    obtain ⟨before, x, after, rfl, hx, hbefore⟩ := hsplit
    refine ⟨before.length, x, by simp, hx, ?_⟩
    intro j hj x' hx'
    rw [List.getElem?_append_left hj] at hx'
    exact hbefore x' (List.mem_of_getElem? hx')
  · intro hplace
    obtain ⟨i, x, hx, hy, hbefore⟩ := hplace
    obtain ⟨hi, rfl⟩ := List.getElem?_eq_some_iff.mp hx
    refine ⟨xs.take i, xs[i], xs.drop (i + 1), ?_, hy, ?_⟩
    · rw [List.getElem_cons_drop, List.take_append_drop]
    · intro x' hx'
      obtain ⟨j, hj, rfl⟩ := List.mem_take_iff_getElem.mp hx'
      have hj' : j < xs.length := by omega
      exact hbefore j (by omega) xs[j] (List.getElem?_eq_getElem hj')

/-- A result is a failure with its number and its error if it is not valid. -/
theorem error?_map_eq_some_iff {r : StreamOutcome} {i : Nat} {e : ParseError} :
    r.error?.map (r.index, ·) = some (i, e) ↔ r.index = i ∧ r.result = .error e := by
  unfold StreamOutcome.error?
  cases r.result with
  | ok s => simp
  | error e' => simp

/-- A result without an error has a stream. -/
theorem error?_map_eq_none_iff {r : StreamOutcome} :
    r.error?.map (r.index, ·) = none ↔ ∃ s, r.result = .ok s := by
  unfold StreamOutcome.error?
  cases r.result with
  | ok s => simp
  | error e => simp

theorem Answers.firstFailure_eq_some_iff (h : Answers o streams b) (i : Nat) (e : ParseError) :
    b.firstFailure? = some (i, e) ↔
      (∃ bytes, streams[i]? = some bytes ∧ ContentStream.parse o bytes = .error e) ∧
        ∀ j < i, ∀ bytes, streams[j]? = some bytes →
          ∃ s, ContentStream.parse o bytes = .ok s := by
  unfold firstFailure?
  rw [findSome?_eq_some_iff_getElem?]
  constructor
  · intro hplace
    obtain ⟨k, r, hr, hfailure, hbefore⟩ := hplace
    obtain ⟨hindex, herror⟩ := error?_map_eq_some_iff.mp hfailure
    obtain ⟨bytes, hbytes, hk, hresult⟩ := h.getElem?_iff.1 r hr
    obtain rfl : k = i := hk.symm.trans hindex
    refine ⟨⟨bytes, hbytes, hresult.symm.trans herror⟩, ?_⟩
    intro j hj bytes' hbytes'
    obtain ⟨r', hr', -, hresult'⟩ := h.getElem?_iff.2 bytes' hbytes'
    rw [← hresult']
    exact error?_map_eq_none_iff.mp (hbefore j hj r' hr')
  · intro hstreams
    obtain ⟨⟨bytes, hbytes, herror⟩, hbefore⟩ := hstreams
    obtain ⟨r, hr, hindex, hresult⟩ := h.getElem?_iff.2 bytes hbytes
    refine ⟨i, r, hr, error?_map_eq_some_iff.mpr ⟨hindex, hresult.trans herror⟩, ?_⟩
    intro j hj r' hr'
    obtain ⟨bytes', hbytes', -, hresult'⟩ := h.getElem?_iff.1 r' hr'
    rw [error?_map_eq_none_iff, hresult']
    exact hbefore j hj bytes' hbytes'

/-- Nothing has failed if and only if all results are valid. -/
theorem firstFailure?_eq_none_iff (b : BatchOutcome) :
    b.firstFailure? = none ↔ b.isValid = true := by
  unfold firstFailure? isValid
  rw [List.findSome?_eq_none_iff, List.all_eq_true]
  apply forall₂_congr
  intro r hr
  rw [error?_map_eq_none_iff]
  unfold StreamOutcome.isValid StreamOutcome.stream?
  cases r.result with
  | ok s => simp
  | error e => simp

/-- The operators of the valid results are those of the valid streams. -/
theorem Answers.operatorCount_eq (h : Answers o streams b) :
    b.operatorCount = (streams.map (ContentStream.operatorsIn o)).sum := by
  have hcount : ∀ rs : List StreamOutcome, ∀ n, (rs.filterMap (·.stream?)).foldl
      (fun n s => n + s.operatorCount) n =
      n + (rs.map fun r => (r.stream?.map (·.operatorCount)).getD 0).sum := by
    intro rs
    induction rs with
    | nil => simp
    | cons r rs ih =>
      intro n
      cases hr : r.stream? with
      | none => simp [hr, ih]
      | some s => simp [hr, ih, Nat.add_assoc]
  have hsame : b.results.map (fun r => (r.stream?.map (·.operatorCount)).getD 0) =
      streams.map (ContentStream.operatorsIn o) := by
    apply List.ext_getElem?
    intro i
    rw [List.getElem?_map, List.getElem?_map]
    cases hbytes : streams[i]? with
    | none =>
      have hlength := h.total_eq
      unfold total at hlength
      rw [List.getElem?_eq_none_iff] at hbytes
      rw [List.getElem?_eq_none_iff.mpr (by omega)]
      rfl
    | some bytes =>
      obtain ⟨r, hr, -, hresult⟩ := h.getElem?_iff.2 bytes hbytes
      rw [hr]
      simp only [Option.map_some, StreamOutcome.stream?, ContentStream.operatorsIn, hresult]
      cases ContentStream.parse o bytes <;> rfl
  unfold operatorCount
  rw [hcount, hsame, Nat.zero_add]

theorem Answers.accountsFor (h : Answers o streams b) : b.AccountsFor o streams where
  results := h
  total := h.total_eq
  counted := b.successful_add_failed
  firstFailure := h.firstFailure_eq_some_iff
  noFailure := b.firstFailure?_eq_none_iff
  operators := h.operatorCount_eq

end BatchOutcome

namespace Batch

/-- **Batches**: whatever the parallelism, and in whatever order and time the workers
    finish, a batch in which none of them panics has an outcome, and the outcome accounts
    for the streams as they are read one by one. Nothing but the durations can differ. -/
theorem exists_outcome (b : BatchOptions) (streams : List (List UInt8)) :
    (∀ delivered, Delivers b streams delivered → ∀ d, ∃ results,
      join delivered (List.range delivered.length) = .ok results ∧
        BatchOutcome.AccountsFor b.options streams ⟨results, d⟩) ∧
    (∃ outcome, validateAll b streams = .ok outcome ∧
      outcome.AccountsFor b.options streams) ∧
    (∀ n delivered delivered', Delivers b streams delivered →
      Delivers { b with parallelism := n } streams delivered' →
        ∃ results results', join delivered (List.range delivered.length) = .ok results ∧
          join delivered' (List.range delivered'.length) = .ok results' ∧
          results.map StreamOutcome.untimed = results'.map StreamOutcome.untimed) := by
  refine ⟨?_, ?_, ?_⟩
  · intro delivered hdelivered d
    obtain ⟨results, hjoin, hresults⟩ := join_of_delivers hdelivered
    have hanswers : BatchOutcome.Answers b.options streams ⟨results, d⟩ := hresults
    exact ⟨results, hjoin, hanswers.accountsFor⟩
  · obtain ⟨results, hjoin, hresults⟩ := join_of_delivers (delivers_deliveries b streams)
    have hanswers : BatchOutcome.Answers b.options streams ⟨results, ⟨0⟩⟩ := hresults
    refine ⟨⟨results, ⟨0⟩⟩, ?_, hanswers.accountsFor⟩
    simp only [validateAll, hjoin]
  · intro n delivered delivered' hdelivered hdelivered'
    -- both are the outcomes of the streams one by one
    obtain ⟨results, hjoin, hresults⟩ := join_of_delivers hdelivered
    obtain ⟨results', hjoin', hresults'⟩ := join_of_delivers hdelivered'
    exact ⟨results, results', hjoin, hjoin', hresults.trans hresults'.symm⟩

end Batch

end PageContent
