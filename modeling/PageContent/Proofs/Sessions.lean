import PageContent.Proofs.ItemDescent

/-! # Sessions of recursive descent

    One stream is asked for one production after the other, and goes on from where
    a request has stopped, failed or not.

    * **At rest**: between two requests nothing is open, the buffer ends at the end
      of the stream if not before, and the position is within it.
    * **One request** has an answer, which is that of a session. It leaves the state
      at rest, has not taken back any token, and reports its error if it has one.
    * **Many requests**: what one of them does, all of them do, by induction.
-/

namespace PageContent

namespace Descent

open Recognizer

/-- Between two requests. -/
structure AtRest (d : Descent) : Prop where
  /-- No group, container or compatibility section is open. -/
  groups : d.groups.depth = 0
  containers : d.containers.depth = 0
  compatibility : d.compatibility = 0
  /-- Only the last token of the buffer may be the end of the stream. -/
  eof_last : ∀ t ∈ d.buffer.dropLast, t.lexeme ≠ .eof
  position_le : d.position ≤ d.buffer.length
  /-- The end of the stream is never used. -/
  before_eof : ∀ t ∈ d.buffer.take d.position, t.lexeme ≠ .eof

/-- The first state is before the second one, as far as its tokens show. -/
def Before (d d' : Descent) : Prop :=
  d.buffer <+: d'.buffer ∧ d.position ≤ d'.position

theorem Before.trans {d d' d'' : Descent} (h : Before d d') (h' : Before d' d'') :
    Before d d'' :=
  ⟨h.1.trans h'.1, Nat.le_trans h.2 h'.2⟩

/-- The session that a state is in. -/
def session (d : Descent) : Session :=
  ⟨d.options, d.feed, d.log⟩

section Requests

variable {d d' : Descent} {o : Options}

theorem Inside.atRest (h : Inside d o []) : d.AtRest where
  groups := congrArg (·.1) h.counters
  containers := congrArg (·.2.1) h.counters
  compatibility := congrArg (·.2.2) h.counters
  eof_last := h.consistent.eof_last
  position_le := h.consistent.position_le
  before_eof := h.consistent.before_eof

/-- Nothing is open at the start of a stream. -/
theorem inside_start (o : Options) (bytes : List UInt8) (log : ErrorLog) :
    Inside (start o bytes log) o [] := by
  refine ⟨⟨?_, Nat.le_refl _, ?_, rfl, rfl⟩, rfl, rfl⟩
  · exact List.forall_mem_nil _
  · exact List.forall_mem_nil _

/-! ## One request -/

theorem expectEnd_ends (hd : d.Consistent) :
    Ends expectEnd d fun y d' =>
      match y with
      | .ok _ => Recognizer.expectEnd d.feed = .ok () ∧ d'.feed = d.feed ∧
          d'.counters = d.counters
      | .error e => Recognizer.expectEnd d.feed = .error (e, d'.feed) := by
  refine Reads.bind (peek_reads hd) ?_ ?_
  · intro t d' hlater hlook hcounters
    obtain ⟨hhead, hfeed⟩ := Feed.look_eq_ok_iff.mp hlook
    unfold Recognizer.expectEnd
    rw [hhead]
    split
    · next heof =>
      refine Ends.pure hlater.consistent ⟨?_, hfeed, hcounters⟩
      simp [heof]
    · next heof =>
      refine Ends.throw hlater.consistent ?_
      simp [heof, hfeed]
  · intro e d' hlook
    obtain ⟨e', hhead, rfl, hfeed⟩ := Feed.look_eq_error_iff.mp hlook
    unfold Recognizer.expectEnd
    rw [hhead, hfeed]

theorem whole_reads (h : Inside d o []) (p : Production) :
    Reads (do let n ← node .page p; expectEnd; return n) d (readAll o p d.feed) := by
  unfold readAll
  refine Reads.bind (node_reads h p) ?_ ?_
  · intro n d₁ hlater₁ hread hcounters₁
    rw [hread]
    refine Ends.bind (expectEnd_ends hlater₁.consistent) ?_ ?_
    · intro u d₂ hlater₂ hend
      obtain ⟨hend, hfeed₂, hcounters₂⟩ := hend
      refine Ends.pure hlater₂.consistent ⟨?_, hcounters₂.trans hcounters₁⟩
      simp only [hend, hfeed₂]
    · intro e d₂ hlater₂ hend
      simp only [hend]
  · intro e d₁ hread
    rw [hread]

/-- An answer, and the state after it. -/
structure Answered (d : Descent) (r : Request) (a : Except ParseError Node) (d' : Descent) :
    Prop where
  answer : d.answer r = some (a, d')
  /-- It is answered as in a session. -/
  session : d.session.answer r = (a, d'.session)
  before : Before d d'
  inside : Inside d' d.options []

/-- A call that reads something is an attempt to read it: only a failure is reported,
    and only then the counters are put back. -/
theorem attempt_of_reads {x : Call Node} {found : Except (ParseError × Feed) (Node × Feed)}
    (h : Inside d o []) (hx : Reads x d found) :
    ∃ a d', attempt x d = some (a, d') ∧ Before d d' ∧ Inside d' o [] ∧
      match a with
      | .ok n => found = .ok (n, d'.feed) ∧ d'.log = d.log
      | .error e => found = .error (e, d'.feed) ∧ d'.log = d.log.report e := by
  obtain ⟨y, d', hrun, hlater, hfound⟩ := hx
  have hbefore : Before d d' := ⟨hlater.buffer, hlater.position⟩
  cases y with
  | ok n =>
    refine ⟨.ok n, d', ?_, hbefore, h.later hlater hfound.2, hfound.1, hlater.log⟩
    show Option.bind (x d) _ = _
    rw [hrun]
    rfl
  | error e =>
    have hback := later_withCounters hlater.consistent d
    refine ⟨.error e, { d'.withCounters d with log := d'.log.report e }, ?_, hbefore, ?_, ?_, ?_⟩
    · show Option.bind (x d) _ = _
      rw [hrun]
      rfl
    · -- a log does not matter to what is open
      have hconsistent := hback.consistent
      refine ⟨⟨?_, ?_, ?_, ?_, ?_⟩, hlater.options.trans h.options, h.counters⟩
      · exact hconsistent.eof_last
      · exact hconsistent.position_le
      · exact hconsistent.before_eof
      · exact hconsistent.groups
      · exact hconsistent.containers
    · exact hfound
    · show d'.log.report e = d.log.report e
      rw [hlater.log]

/-- **One request** is answered, and leaves nothing open. -/
theorem exists_answered (h : Inside d d.options []) (r : Request) :
    ∃ a d', Answered d r a d' := by
  have hattempt : ∃ x, d.answer r = attempt x d ∧ Reads x d (d.session.find r) := by
    cases r with
    | part p => exact ⟨_, rfl, node_reads h p⟩
    | whole p => exact ⟨_, rfl, whole_reads h p⟩
  obtain ⟨x, hanswer, hx⟩ := hattempt
  obtain ⟨a, d', hrun, hbefore, hinside, hfound⟩ := attempt_of_reads h hx
  refine ⟨a, d', hanswer.trans hrun, ?_, hbefore, hinside⟩
  have hoptions : d'.options = d.options := hinside.options
  unfold Session.answer
  cases a with
  | ok n =>
    obtain ⟨hfound, hlog⟩ := hfound
    rw [hfound, session, session, hoptions, hlog]
  | error e =>
    obtain ⟨hfound, hlog⟩ := hfound
    rw [hfound, session, session, hoptions, hlog]

theorem Answered.log {r : Request} {a : Except ParseError Node} (h : Answered d r a d') :
    d'.log.errors = d.log.errors ++ (Session.error? a).toList := by
  have hlog := Session.log_answer d.session r
  rw [h.session] at hlog
  exact hlog

end Requests

/-! ## Many requests -/

/-- The errors of the first answers of some steps. -/
def reported (steps : List (Except ParseError Node × Descent)) : List ParseError :=
  steps.filterMap fun step => Session.error? step.1

/-- What some requests lead to from a state. -/
structure Run (d : Descent) (rs : List Request)
    (steps : List (Except ParseError Node × Descent)) : Prop where
  answers : d.answers rs = some steps
  length : steps.length = rs.length
  session : steps.map (·.1) = (d.session.answers rs).1
  before : (d :: steps.map (·.2)).Pairwise Before
  atRest : ∀ step ∈ steps, step.2.AtRest
  log : ∀ i step, steps[i]? = some step →
    step.2.log.errors = d.log.errors ++ reported (steps.take (i + 1))

theorem Run.nil (d : Descent) : Run d [] [] where
  answers := rfl
  length := rfl
  session := rfl
  before := List.pairwise_singleton _ _
  atRest := List.forall_mem_nil _
  log := by simp

theorem Run.cons {d d' : Descent} {r : Request} {rs : List Request} {a : Except ParseError Node}
    {steps : List (Except ParseError Node × Descent)} (h : Answered d r a d')
    (hrun : Run d' rs steps) : Run d (r :: rs) ((a, d') :: steps) where
  answers := by
    rw [Descent.answers, h.answer]
    show (d'.answers rs >>= fun others => some ((a, d') :: others)) = _
    rw [hrun.answers]
    rfl
  length := congrArg (· + 1) hrun.length
  session := by
    rw [Session.answers, h.session]
    exact congrArg (a :: ·) hrun.session
  before := by
    -- the first state is before the second one, and so before all that come after
    refine List.Pairwise.cons ?_ hrun.before
    intro d'' hmem
    rcases List.mem_cons.mp hmem with rfl | hmem
    · exact h.before
    · exact h.before.trans (List.rel_of_pairwise_cons hrun.before hmem)
  atRest := List.forall_mem_cons.mpr ⟨h.inside.atRest, hrun.atRest⟩
  log := by
    intro i step hstep
    cases i with
    | zero =>
      obtain rfl := Option.some.inj hstep
      rw [h.log, reported]
      cases a <;> rfl
    | succ i =>
      rw [hrun.log i step hstep, h.log, List.append_assoc, List.take_succ_cons]
      cases a <;> rfl

/-- **Many requests** are answered one after the other, from a state in which
    nothing is open. -/
theorem exists_run {d : Descent} (h : Inside d d.options []) (rs : List Request) :
    ∃ steps, Run d rs steps := by
  induction rs generalizing d with
  | nil => exact ⟨[], Run.nil d⟩
  | cons r rs ih =>
    obtain ⟨a, d', hanswered⟩ := exists_answered h r
    have hinside : Inside d' d'.options [] := by
      rw [hanswered.inside.options]
      exact hanswered.inside
    obtain ⟨steps, hrun⟩ := ih hinside
    exact ⟨(a, d') :: steps, Run.cons hanswered hrun⟩

/-- **Sessions**: whatever a stream is asked for, every request is answered, as a
    session answers it. After each of them nothing is open, the buffer has at most one
    end of the stream, which is its last token and has not been used, and exactly the
    errors of the answers so far have been reported. Tokens are never taken back. -/
theorem answers_start (o : Options) (bytes : List UInt8) (log : ErrorLog)
    (rs : List Request) :
    ∃ steps, (start o bytes log).answers rs = some steps ∧
      steps.length = rs.length ∧
      steps.map (·.1) = ((Session.start o bytes log).answers rs).1 ∧
      (start o bytes log :: steps.map (·.2)).Pairwise Before ∧
      (∀ step ∈ steps, step.2.AtRest) ∧
      ∀ i step, steps[i]? = some step →
        step.2.log.errors = log.errors ++ reported (steps.take (i + 1)) := by
  obtain ⟨steps, hrun⟩ := exists_run (inside_start o bytes log) rs
  exact ⟨steps, hrun.answers, hrun.length, hrun.session, hrun.before, hrun.atRest, hrun.log⟩

end Descent

end PageContent
