import PageContent.Proofs.Buffering

/-! # Operands by recursive descent

    The operands before an operator, read by functions that call each other, are
    those that the operand reader finds with its stack.

    * **Facing**: a state stands before some tokens and has as many containers
      open as a reader.
    * **Following**: what a function has read takes the reader further by the
      same tokens, or it fails as the reader does.
    * **Calls**: operands and an operator after them, compared with a phrase of
      the feed.
-/

namespace PageContent

namespace Feed

/-- No token comes before the next operator, fault or end. -/
def Bare : Feed → Prop
  | .phrase p _ => p.pending = []
  | .fault pending _ _ => pending = []
  | .finish pending _ => pending = []
  | .stuck pending _ => pending = []

/-- Any feed is that of some tokens in front of a bare feed. -/
theorem exists_bare (feed : Feed) : ∃ base ts, feed = prepend ts base ∧ base.Bare := by
  cases feed with
  | phrase p rest =>
    exact ⟨.phrase ⟨[], p.keyword, p.place⟩ rest, p.pending, by simp [prepend], rfl⟩
  | fault pending e rest => exact ⟨.fault [] e rest, pending, by simp [prepend], rfl⟩
  | finish pending eof => exact ⟨.finish [] eof, pending, by simp [prepend], rfl⟩
  | stuck pending e => exact ⟨.stuck [] e, pending, by simp [prepend], rfl⟩

theorem Tidy.of_prepend {ts : List Token} {base : Feed} (h : (base.prepend ts).Tidy) :
    (∀ t ∈ ts, t.lexeme.endsOperands = false) ∧ base.Tidy := by
  have hparts : ∀ us : List Token, (∀ t ∈ ts ++ us, t.lexeme.endsOperands = false) →
      (∀ t ∈ ts, t.lexeme.endsOperands = false) ∧ ∀ t ∈ us, t.lexeme.endsOperands = false := by
    intro us hus
    exact ⟨fun t ht => hus t (by simp [ht]), fun t ht => hus t (by simp [ht])⟩
  cases base with
  | phrase p rest => exact ⟨(hparts _ h.1).1, (hparts _ h.1).2, h.2⟩
  | fault pending e rest => exact ⟨(hparts _ h.1).1, (hparts _ h.1).2, h.2⟩
  | finish pending eof => exact ⟨(hparts _ h.1).1, (hparts _ h.1).2, h.2⟩
  | stuck pending e => exact ⟨(hparts _ h).1, (hparts _ h).2⟩

/-- A token in front of a bare feed ends the operands. -/
theorem Bare.endsOperands {base : Feed} (h : base.Bare) (htidy : base.Tidy) {t : Token}
    (ht : base.head = .ok t) : t.lexeme.endsOperands = true := by
  cases base with
  | phrase p rest =>
    obtain ⟨pending, keyword, place⟩ := p
    obtain rfl : pending = [] := h
    obtain rfl := Except.ok.inj ht
    rfl
  | fault pending e rest =>
    obtain rfl : pending = [] := h
    exact absurd ht (by simp [head])
  | finish pending eof =>
    obtain rfl : pending = [] := h
    obtain rfl := Except.ok.inj ht
    simp [htidy.2, Lexeme.endsOperands]
  | stuck pending e =>
    obtain rfl : pending = [] := h
    exact absurd ht (by simp [head])

end Feed

namespace OperandReader

/-- What a reader comes to that reads some tokens and then what is after them. -/
def readOn (limit : Nat) (base : Feed) (r : OperandReader) (ts : List Token) :
    Except (ParseError × Feed) (List (Operand × Span) × Feed) :=
  match r.run limit ts, base.head with
  | .refused e left, _ => .error (e, base.prepend left)
  | .complete xs, .ok _ => .ok (xs, base)
  | .unfinished r', .ok t => .error ((r'.refuse t).1, if (r'.refuse t).2 then base.tail else base)
  | _, .error e => .error (.lexical e, base.pastFault)

theorem readOn_congr {limit : Nat} {base : Feed} {r r' : OperandReader} {ts us : List Token}
    (h : r.run limit ts = r'.run limit us) : r.readOn limit base ts = r'.readOn limit base us := by
  unfold readOn
  rw [h]

/-- A refused token ends the run. -/
theorem readOn_refused {limit : Nat} {base : Feed} {r : OperandReader} {t : Token}
    {ts : List Token} {e : ParseError} {used : Bool} (h : r.step limit t = .error (e, used)) :
    r.readOn limit base (t :: ts) =
      .error (e, base.prepend (if used then ts else t :: ts)) := by
  unfold readOn run
  rw [h]
  cases used <;> rfl

/-- A reader that is not idle does not get past its tokens. -/
theorem readOn_of_head {limit : Nat} {base : Feed} {r : OperandReader} (h : r.isIdle = false)
    {t : Token} (ht : base.head = .ok t) {e : ParseError} {used : Bool}
    (hrefuse : r.refuse t = (e, used)) :
    r.readOn limit base [] = .error (e, if used then base.tail else base) := by
  unfold readOn run
  simp [h, ht, hrefuse]

theorem readOn_idle {limit : Nat} {base : Feed} {t : Token} (ht : base.head = .ok t)
    (done : List (Operand × Span)) :
    readOn limit base ⟨done, [], none⟩ [] = .ok (done.reverse, base) := by
  unfold readOn run
  simp [isIdle, ht]

theorem readOn_of_fault {limit : Nat} {base : Feed} {e : LexicalError}
    (he : base.head = .error e) (r : OperandReader) :
    r.readOn limit base [] = .error (.lexical e, base.pastFault) := by
  unfold readOn run
  rw [he]
  cases r.isIdle <;> rfl

theorem isIdle_of_dict (done : List (Operand × Span)) (holes : List Hole) (d : OpenDict) :
    isIdle ⟨done, holes, some d⟩ = false :=
  Bool.and_false _

/-- The reader waits for an operand that has to come now. In an array that is a
    token that may begin one. -/
def Wants (r : OperandReader) (ts : List Token) : Prop :=
  r.Awaits ∧
    match r.holes, ts with
    | [], ts => ts ≠ []
    | .item _ _ :: _, [] => False
    | .item _ _ :: _, t :: _ => t.lexeme ≠ .arrayClose ∧ t.lexeme ≠ .dictClose
    | .value _ _ _ :: _, _ => True

/-- A token that begins no operand is refused where an operand is wanted. -/
theorem step_of_wants {limit : Nat} {r : OperandReader} {t : Token} {ts : List Token}
    (h : r.Wants (t :: ts)) (ht : t.lexeme.endsOperands = false)
    (hscalar : t.lexeme.scalar? = none) (harray : t.lexeme ≠ .arrayOpen)
    (hdict : t.lexeme ≠ .dictOpen) : r.step limit t = .error (.misplaced t .operand, true) := by
  obtain ⟨done, holes, dict⟩ := r
  obtain ⟨lexeme, span⟩ := t
  obtain ⟨hawaits, hholes⟩ := h
  obtain rfl : dict = none := hawaits
  have hclose : lexeme = .arrayClose ∨ lexeme = .dictClose := by
    cases lexeme with
    | arrayClose => exact .inl rfl
    | dictClose => exact .inr rfl
    | arrayOpen => exact absurd rfl harray
    | dictOpen => exact absurd rfl hdict
    | operator keyword => exact absurd ht (by simp [Lexeme.endsOperands])
    | eof => exact absurd ht (by simp [Lexeme.endsOperands])
    | _ => exact absurd hscalar (Option.some_ne_none _)
  cases holes with
  | nil => rcases hclose with rfl | rfl <;> rfl
  | cons hole outer =>
    cases hole with
    | value opened before key => rcases hclose with rfl | rfl <;> rfl
    | item opened before =>
      obtain ⟨hne, hne'⟩ := hholes
      rcases hclose with rfl | rfl
      · exact absurd rfl hne
      · exact absurd rfl hne'

/-- Where an operand is wanted and no token is left, the reader is in an entry of
    a dictionary. -/
theorem refuse_of_wants {r : OperandReader} (h : r.Wants []) (t : Token) :
    r.isIdle = false ∧ r.refuse t = (.misplaced t .operand, true) := by
  obtain ⟨done, holes, dict⟩ := r
  obtain ⟨hawaits, hholes⟩ := h
  obtain rfl : dict = none := hawaits
  match holes with
  | [] => exact absurd rfl hholes
  | .item opened before :: outer => exact hholes.elim
  | .value opened before key :: outer => exact ⟨rfl, rfl⟩

end OperandReader

namespace Descent

open OperandReader

/-! ## Containers -/

theorem later_withCounters {d : Descent} (hd : d.Consistent) (other : Descent) :
    Later d (d.withCounters other) where
  buffer := List.prefix_refl _
  position := Nat.le_refl _
  options := rfl
  log := rfl
  size := Nat.le_refl _
  consistent :=
    { eof_last := hd.eof_last
      position_le := hd.position_le
      before_eof := hd.before_eof
      groups := by
        show NestingGuard.mk d.groups.subject d.groups.limit _ = _
        rw [hd.groups]
        rfl
      containers := by
        show NestingGuard.mk d.containers.subject d.containers.limit _ = _
        rw [hd.containers]
        rfl }

/-- Opening a container is what the reader does, which has as many open. -/
theorem enterContainer_ends {d : Descent} (hd : d.Consistent) {r : OperandReader}
    (hdepth : d.containers.depth = r.depth) (t : Token) (opened : OperandReader) :
    Ends (enterContainer t.span) d fun y d' =>
      d'.feed = d.feed ∧
        match y with
        | .ok _ => r.enter d.options.maxNesting t opened = .ok opened ∧
            d'.counters = (d.groups.depth, r.depth + 1, d.compatibility)
        | .error e => r.enter d.options.maxNesting t opened = .error (e, true) := by
  have hguard : { containerGuard d.options with depth := r.depth } = d.containers := by
    rw [← hdepth]
    exact hd.containers.symm
  simp only [containerGuard] at hguard
  simp only [OperandReader.enter, hguard]
  refine Ends.get ?_
  cases henter : d.containers.enter t.span with
  | error e => exact Ends.throw hd ⟨rfl, rfl⟩
  | ok guard =>
    have hopen : guard = { d.containers with depth := r.depth + 1 } := by
      unfold NestingGuard.enter at henter
      split at henter
      · rw [← Except.ok.inj henter, hdepth]
      · exact absurd henter (by simp)
    subst hopen
    exact ⟨_, _, rfl, later_withCounters hd
      { d with containers := { d.containers with depth := r.depth + 1 } }, rfl, rfl, rfl⟩

theorem leaveContainer_eq {d : Descent} {n : Nat} (hdepth : d.containers.depth = n + 1) :
    leaveContainer d =
      some (.ok (), { d with containers := { d.containers with depth := n } }) := by
  unfold leaveContainer
  show (Call.decrease d.containers.depth >>= fun _ => _) d = _
  rw [hdepth]
  rfl

/-! ## Operands -/

/-- The state stands before some tokens, after which there is a bare feed, and has
    the containers of a reader open. -/
structure Facing (d : Descent) (base : Feed) (ts : List Token) (r : OperandReader) : Prop where
  consistent : d.Consistent
  bare : base.Bare
  feed : d.feed = base.prepend ts
  depth : d.containers.depth = r.depth

section Operands

variable {d : Descent} {base : Feed} {ts : List Token} {r : OperandReader}

theorem Facing.before (h : Facing d base ts r) : ∀ t ∈ ts, t.lexeme.endsOperands = false := by
  have htidy := tidy_feed d
  rw [h.feed] at htidy
  exact htidy.of_prepend.1

theorem Facing.endsOperands (h : Facing d base ts r) {t : Token} (ht : base.head = .ok t) :
    t.lexeme.endsOperands = true := by
  have htidy := tidy_feed d
  rw [h.feed] at htidy
  exact h.bare.endsOperands htidy.of_prepend.2 ht

theorem Facing.later {d' : Descent} {us : List Token} {r' : OperandReader}
    (h : Facing d base ts r) (hlater : Later d d') (hcounters : d'.counters = d.counters)
    (hdepth : r'.depth = r.depth) (hfeed : d'.feed = base.prepend us) : Facing d' base us r' where
  consistent := hlater.consistent
  bare := h.bare
  feed := hfeed
  depth := (congrArg (·.2.1) hcounters).trans (h.depth.trans hdepth.symm)

/-- The next token is used. -/
theorem Facing.advance {t : Token} {us : List Token} (h : Facing d base (t :: us) r) :
    ∃ d', advance d = some (.ok t, d') ∧ Later d d' ∧ d'.counters = d.counters ∧
      d'.feed = base.prepend us := by
  obtain ⟨y, d', hrun, hlater, htake⟩ := advance_reads h.consistent
  rw [h.feed] at htake
  cases y with
  | ok u =>
    obtain ⟨htake, hcounters⟩ := htake
    obtain ⟨hhead, hfeed⟩ := Feed.take_eq_ok_iff.mp htake
    rw [Feed.head_prepend_cons, Except.ok.injEq] at hhead
    subst hhead
    exact ⟨d', hrun, hlater, hcounters, hfeed.trans (Feed.tail_prepend_cons t us base)⟩
  | error e =>
    obtain ⟨e', hhead, -⟩ := Feed.take_eq_error_iff.mp htake
    rw [Feed.head_prepend_cons] at hhead
    exact absurd hhead (by simp)

/-- The next token is looked at. -/
theorem Facing.peek {t : Token} {us : List Token} (h : Facing d base (t :: us) r) :
    ∃ d', peek d = some (.ok t, d') ∧ Later d d' ∧ d'.counters = d.counters ∧
      d'.feed = base.prepend (t :: us) ∧ ∃ vs, d'.unread = t :: vs := by
  obtain ⟨y, d', hrun, hlater, hpeek⟩ := peek_ends h.consistent
  cases y with
  | ok u =>
    obtain ⟨hfeed, hcounters, vs, hunread⟩ := hpeek
    have hhead : d.feed.head = .ok u := by rw [← hfeed, head_feed hunread]
    rw [h.feed, Feed.head_prepend_cons, Except.ok.injEq] at hhead
    subst hhead
    exact ⟨d', hrun, hlater, hcounters, hfeed.trans h.feed, vs, hunread⟩
  | error e =>
    obtain ⟨e', -, hhead, -⟩ := hpeek
    rw [h.feed, Feed.head_prepend_cons] at hhead
    exact absurd hhead (by simp)

/-- What a function has read, from some tokens on, takes the reader as far, or it
    fails as the reader does. -/
def Follows {α : Type} (d : Descent) (base : Feed) (ts : List Token) (r : OperandReader)
    (next : α → OperandReader) (y : Except ParseError α) (d' : Descent) : Prop :=
  match y with
  | .ok a => d'.counters = d.counters ∧ ∃ left, d'.feed = base.prepend left ∧
      left.length < ts.length ∧
      r.run d.options.maxNesting ts = (next a).run d.options.maxNesting left
  | .error e => r.readOn d.options.maxNesting base ts = .error (e, d'.feed)

/-- An operand that is wanted is delivered. -/
def OperandFollows (n : Nat) : Prop :=
  ∀ {d : Descent} {base : Feed} {ts : List Token} {r : OperandReader}, Facing d base ts r →
    ts.length ≤ n → r.Wants ts →
    Ends operand d (Follows d base ts r fun x => r.deliver x.1 x.2)

/-- The members of an array are read, and the array is delivered. -/
def ItemsFollow (n : Nat) : Prop :=
  ∀ {d : Descent} {base : Feed} {ts : List Token} {done : List (Operand × Span)}
    {opened : Span} {items : List Operand} {outer : List Hole},
    Facing d base ts ⟨done, .item opened items.reverse :: outer, none⟩ → ts.length < n →
    Ends (arrayItems items) d
      (Follows d base ts ⟨done, .item opened items.reverse :: outer, none⟩ fun x =>
        deliver ⟨done, outer, none⟩ (.array x.1) (opened.join x.2))

/-- The entries of a dictionary are read, and the dictionary is delivered. -/
def EntriesFollow (n : Nat) : Prop :=
  ∀ {d : Descent} {base : Feed} {ts : List Token} {done : List (Operand × Span)}
    {holes : List Hole} {opened : Span} {entries : List (String × Operand)},
    Facing d base ts ⟨done, holes, some ⟨opened, entries.reverse⟩⟩ → ts.length < n →
    Ends (dictEntries entries) d
      (Follows d base ts ⟨done, holes, some ⟨opened, entries.reverse⟩⟩ fun x =>
        deliver ⟨done, holes, none⟩ (.dictionary x.1) (opened.join x.2))

/-- What follows once the reader has gone some of the way follows from its start. -/
theorem Follows.after {α : Type} {next : α → OperandReader} {y : Except ParseError α}
    {d₀ d' : Descent} {r₀ : OperandReader} {us : List Token}
    (hoptions : d.options = d₀.options) (hcounters : d.counters = d₀.counters)
    (hlength : ts.length ≤ us.length)
    (hrun : r₀.run d₀.options.maxNesting us = r.run d₀.options.maxNesting ts)
    (h : Follows d base ts r next y d') : Follows d₀ base us r₀ next y d' := by
  cases y with
  | ok a =>
    obtain ⟨hcounters', left, hfeed, hless, hrun'⟩ := h
    rw [hoptions] at hrun'
    exact ⟨hcounters'.trans hcounters, left, hfeed, Nat.lt_of_lt_of_le hless hlength,
      hrun.trans hrun'⟩
  | error e =>
    show r₀.readOn d₀.options.maxNesting base us = _
    rw [readOn_congr hrun, ← hoptions]
    exact h

theorem Follows.congr {α : Type} {next : α → OperandReader} {y : Except ParseError α}
    {d₀ d' : Descent} (hoptions : d.options = d₀.options) (hcounters : d.counters = d₀.counters)
    (h : Follows d base ts r next y d') : Follows d₀ base ts r next y d' :=
  h.after hoptions hcounters (Nat.le_refl _) rfl

/-- An error of the reader later on is an error of a function that needs more. -/
theorem Follows.fail {α β : Type} {next : α → OperandReader} {next' : β → OperandReader}
    {e : ParseError} {d' : Descent}
    (h : Follows d base ts r next (.error e : Except ParseError α) d') :
    Follows d base ts r next' (.error e : Except ParseError β) d' :=
  h

/-- A container that has just been opened, up to its end. -/
theorem container_follows {α : Type} {t : Token} {inner : OperandReader}
    {items : Call (α × Span)} {make : α → Operand}
    (h : Facing d base ts r) (hstep : r.step d.options.maxNesting t =
      r.enter d.options.maxNesting t inner) (hinner : inner.depth = r.depth + 1)
    (hitems : ∀ {d'}, Facing d' base ts inner → Ends items d'
      (Follows d' base ts inner fun x => r.deliver (make x.1) (t.span.join x.2))) :
    Ends (do
        enterContainer t.span
        let (x, closed) ← items
        leaveContainer
        return (make x, t.span.join closed)) d
      (Follows d base (t :: ts) r fun x => r.deliver x.1 x.2) := by
  refine Ends.bind (enterContainer_ends h.consistent h.depth t inner) ?_ ?_
  · intro u d₁ hlater hopen
    obtain ⟨hfeed, henter, hcounters⟩ := hopen
    have hfacing : Facing d₁ base ts inner := by
      refine ⟨hlater.consistent, h.bare, hfeed.trans h.feed, ?_⟩
      rw [hinner]
      exact congrArg (·.2.1) hcounters
    have hrun : r.run d.options.maxNesting (t :: ts) = inner.run d.options.maxNesting ts :=
      run_cons_ok (hstep.trans henter)
    refine Ends.bind (hitems hfacing) ?_ ?_
    · intro x d₂ hlater₂ hfollows
      obtain ⟨hcounters₂, left, hfeed₂, hlength, hrun₂⟩ := hfollows
      rw [hlater.options] at hrun₂
      have hopen₂ := hcounters₂.trans hcounters
      have hlater₃ := later_withCounters hlater₂.consistent
        { d₂ with containers := { d₂.containers with depth := r.depth } }
      refine Ends.run (leaveContainer_eq (congrArg (·.2.1) hopen₂)) hlater₃ ?_
      refine Ends.pure hlater₃.consistent
        ⟨?_, left, hfeed₂, Nat.lt_succ_of_lt hlength, hrun.trans hrun₂⟩
      have hgroups : d₂.groups.depth = d.groups.depth := congrArg (·.1) hopen₂
      have hcompatibility : d₂.compatibility = d.compatibility := congrArg (·.2.2) hopen₂
      show (d₂.groups.depth, r.depth, d₂.compatibility) = d.counters
      rw [hgroups, hcompatibility, ← h.depth]
      rfl
    · intro e d₂ hlater₂ hfollows
      show r.readOn d.options.maxNesting base (t :: ts) = _
      rw [readOn_congr hrun, ← hlater.options]
      exact hfollows
  · intro e d₁ hlater hopen
    show r.readOn d.options.maxNesting base (t :: ts) = _
    rw [readOn_refused (hstep.trans hopen.2), hopen.1, h.feed]
    rfl

/-- Where no token is left, an operand that is wanted is missing. -/
theorem operand_missing (h : Facing d base [] r) (hwants : r.Wants []) :
    Ends operand d (Follows d base [] r fun x => r.deliver x.1 x.2) := by
  rw [operand]
  refine Reads.bind (advance_reads h.consistent) ?_ ?_
  · intro t d' hlater htake hcounters
    rw [h.feed, Feed.prepend_nil, Feed.take_eq_ok_iff] at htake
    obtain ⟨hhead, hfeed⟩ := htake
    obtain ⟨hidle, hrefuse⟩ := refuse_of_wants hwants t
    have hthrow : Ends (MonadExcept.throw (.misplaced t .operand) : Call (Operand × Span)) d'
        (Follows d base [] r fun x => r.deliver x.1 x.2) := by
      refine Ends.throw hlater.consistent ?_
      show r.readOn _ base [] = _
      rw [readOn_of_head hidle hhead hrefuse, hfeed]
      rfl
    have hends := h.endsOperands hhead
    obtain ⟨lexeme, span⟩ := t
    cases lexeme with
    | operator keyword => exact hthrow
    | eof => exact hthrow
    | _ => exact absurd hends (by simp [Lexeme.endsOperands])
  · intro e d' htake
    rw [h.feed, Feed.prepend_nil, Feed.take_eq_error_iff] at htake
    obtain ⟨e', hhead, rfl, hfeed⟩ := htake
    show r.readOn _ base [] = _
    rw [readOn_of_fault hhead, hfeed]

/-- An operand that begins with the next token. -/
theorem operand_present {n : Nat} (hitems : ItemsFollow n) (hentries : EntriesFollow n)
    {t : Token} {us : List Token} (h : Facing d base (t :: us) r) (hlength : us.length < n)
    (hwants : r.Wants (t :: us)) :
    Ends operand d (Follows d base (t :: us) r fun x => r.deliver x.1 x.2) := by
  have hself : r = ⟨r.done, r.holes, none⟩ := by rw [← hwants.1]
  obtain ⟨d', hadvance, hlater, hcounters, hfeed⟩ := h.advance
  have hfacing : Facing d' base us r := h.later hlater hcounters rfl hfeed
  rw [operand]
  refine Ends.run hadvance hlater ?_
  split
  · next x hx =>
    refine Ends.pure hlater.consistent ⟨hcounters, us, hfeed, Nat.lt_succ_self _, ?_⟩
    exact run_cons_ok (step_scalar hwants.1 hx)
  · next hx =>
    split
    · next ho =>
      refine (container_follows hfacing (step_arrayOpen hwants.1 ho) ?_ ?_).mono
        fun _ _ _ => Follows.congr hlater.options hcounters
      · rw [depth_of_awaits hwants.1]
        rfl
      · intro d'' hfacing'
        have hfollow : Ends (arrayItems []) d'' (Follows d'' base us
            ⟨r.done, .item t.span [].reverse :: r.holes, none⟩ fun x =>
              deliver ⟨r.done, r.holes, none⟩ (.array x.1) (t.span.join x.2)) :=
          hitems hfacing' hlength
        rwa [← hself] at hfollow
    · next ho =>
      refine (container_follows hfacing (step_dictOpen hwants.1 ho) ?_ ?_).mono
        fun _ _ _ => Follows.congr hlater.options hcounters
      · rw [depth_of_awaits hwants.1]
        rfl
      · intro d'' hfacing'
        have hfollow : Ends (dictEntries []) d'' (Follows d'' base us
            ⟨r.done, r.holes, some ⟨t.span, [].reverse⟩⟩ fun x =>
              deliver ⟨r.done, r.holes, none⟩ (.dictionary x.1) (t.span.join x.2)) :=
          hentries hfacing' hlength
        rwa [← hself] at hfollow
    · next harray hdict =>
      have hstep : r.step d.options.maxNesting t = .error (.misplaced t .operand, true) :=
        step_of_wants hwants (h.before t (by simp)) hx harray hdict
      refine Ends.throw hlater.consistent ?_
      show r.readOn _ base (t :: us) = _
      rw [readOn_refused hstep, hfeed]
      rfl

theorem operand_follows {n : Nat} (hitems : ItemsFollow n) (hentries : EntriesFollow n) :
    OperandFollows n := by
  intro d base ts r h hlength hwants
  match ts with
  | [] => exact operand_missing h hwants
  | t :: us => exact operand_present hitems hentries h hlength hwants

/-- A token that is looked at comes next among those before the state, or ends them. -/
theorem Facing.head {t : Token} (h : Facing d base ts r) (ht : d.feed.head = .ok t) :
    (∃ us, ts = t :: us ∧ t.lexeme.endsOperands = false) ∨
      ts = [] ∧ base.head = .ok t ∧ t.lexeme.endsOperands = true := by
  match ts with
  | u :: us =>
    rw [h.feed, Feed.head_prepend_cons, Except.ok.injEq] at ht
    subst ht
    exact .inl ⟨us, rfl, h.before u (by simp)⟩
  | [] =>
    rw [h.feed, Feed.prepend_nil] at ht
    exact .inr ⟨rfl, ht, h.endsOperands ht⟩

theorem Facing.fault {e : LexicalError} (h : Facing d base ts r) (he : d.feed.head = .error e) :
    ts = [] ∧ base.head = .error e ∧ d.feed.pastFault = base.pastFault := by
  match ts with
  | u :: us =>
    rw [h.feed, Feed.head_prepend_cons] at he
    exact absurd he (by simp)
  | [] =>
    rw [h.feed, Feed.prepend_nil] at he ⊢
    exact ⟨rfl, he, rfl⟩

/-- Where no token is left, an array is not closed. -/
theorem items_missing {done : List (Operand × Span)} {opened : Span} {items : List Operand}
    {outer : List Hole} (h : Facing d base [] ⟨done, .item opened items.reverse :: outer, none⟩) :
    Ends (arrayItems items) d
      (Follows d base [] ⟨done, .item opened items.reverse :: outer, none⟩ fun x =>
        deliver ⟨done, outer, none⟩ (.array x.1) (opened.join x.2)) := by
  rw [arrayItems]
  refine Reads.bind (peek_reads h.consistent) ?_ ?_
  · intro t d' hlater hlook hcounters
    obtain ⟨hhead, hfeed⟩ := Feed.look_eq_ok_iff.mp hlook
    rw [h.feed, Feed.prepend_nil] at hhead hfeed
    have hthrow : Ends (MonadExcept.throw (.misplaced t .arrayClose) :
        Call (List Operand × Span)) d'
        (Follows d base [] ⟨done, .item opened items.reverse :: outer, none⟩ fun x =>
          deliver ⟨done, outer, none⟩ (.array x.1) (opened.join x.2)) := by
      refine Ends.throw hlater.consistent ?_
      show readOn _ base _ [] = _
      rw [readOn_of_head rfl hhead rfl, hfeed]
      rfl
    have hends := h.endsOperands hhead
    obtain ⟨lexeme, span⟩ := t
    cases lexeme with
    | operator keyword => exact hthrow
    | eof => exact hthrow
    | _ => exact absurd hends (by simp [Lexeme.endsOperands])
  · intro e d' hlook
    obtain ⟨e', hhead, rfl, hfeed⟩ := Feed.look_eq_error_iff.mp hlook
    rw [h.feed, Feed.prepend_nil] at hhead hfeed
    show readOn _ base _ [] = _
    rw [readOn_of_fault hhead, hfeed]

/-- One more member, and the others after it. -/
theorem member_follows {n : Nat} (hoperand : OperandFollows n) (hitems : ItemsFollow n)
    {done : List (Operand × Span)} {opened : Span} {items : List Operand} {outer : List Hole}
    {t : Token} {us : List Token}
    (h : Facing d base (t :: us) ⟨done, .item opened items.reverse :: outer, none⟩)
    (hlength : us.length < n) (harray : t.lexeme ≠ .arrayClose) (hdict : t.lexeme ≠ .dictClose) :
    Ends (do
        let (x, _) ← operand
        arrayItems (items ++ [x])) d
      (Follows d base (t :: us) ⟨done, .item opened items.reverse :: outer, none⟩ fun x =>
        deliver ⟨done, outer, none⟩ (.array x.1) (opened.join x.2)) := by
  refine Ends.bind (hoperand h hlength ⟨rfl, harray, hdict⟩) ?_ ?_
  · intro x d' hlater hfollows
    obtain ⟨hcounters, left, hfeed, hless, hrun⟩ := hfollows
    have hmember : deliver ⟨done, .item opened items.reverse :: outer, none⟩ x.1 x.2 =
        ⟨done, .item opened (items ++ [x.1]).reverse :: outer, none⟩ := by
      rw [List.reverse_append]
      rfl
    simp only [hmember] at hrun
    have hfacing : Facing d' base left
        ⟨done, .item opened (items ++ [x.1]).reverse :: outer, none⟩ :=
      h.later hlater hcounters rfl hfeed
    have hfew : left.length < n := by
      simp only [List.length_cons] at hless
      omega
    refine Ends.mono (hitems hfacing hfew) ?_
    intro y d'' hlater' hfollows'
    exact hfollows'.after hlater.options hcounters (Nat.le_of_lt hless) hrun
  · intro e d' hlater hfollows
    exact hfollows.fail

/-- The members of an array from the next token on. -/
theorem items_present {n : Nat} (hoperand : OperandFollows n) (hitems : ItemsFollow n)
    {done : List (Operand × Span)} {opened : Span} {items : List Operand} {outer : List Hole}
    {t : Token} {us : List Token}
    (h : Facing d base (t :: us) ⟨done, .item opened items.reverse :: outer, none⟩)
    (hlength : us.length < n) :
    Ends (arrayItems items) d
      (Follows d base (t :: us) ⟨done, .item opened items.reverse :: outer, none⟩ fun x =>
        deliver ⟨done, outer, none⟩ (.array x.1) (opened.join x.2)) := by
  obtain ⟨d', hpeek, hlater, hcounters, hfeed, vs, hunread⟩ := h.peek
  have hfacing : Facing d' base (t :: us) ⟨done, .item opened items.reverse :: outer, none⟩ :=
    h.later hlater hcounters rfl hfeed
  have hends := h.before t (by simp)
  rw [arrayItems]
  refine Ends.run hpeek hlater ?_
  split
  · next hclose =>
    -- the end of the array is used
    have hne : t.lexeme ≠ .eof := by simp [hclose]
    obtain ⟨hlater', hfeed'⟩ := proceed_ends hlater.consistent hunread hne
    rw [hfeed, Feed.tail_prepend_cons] at hfeed'
    refine Ends.modify hlater' (Ends.pure hlater'.consistent
      ⟨hcounters, us, hfeed', Nat.lt_succ_self _, ?_⟩)
    rw [run_cons_ok (step_arrayClose hclose), List.reverse_reverse]
  · next keyword hoperator => exact absurd hends (by simp [hoperator, Lexeme.endsOperands])
  · next heof => exact absurd hends (by simp [heof, Lexeme.endsOperands])
  · next hdict =>
    -- what cannot stand in an array is not used
    have hawaits : Awaits ⟨done, .item opened items.reverse :: outer, none⟩ := rfl
    refine Ends.throw hlater.consistent ?_
    show readOn _ base _ (t :: us) = _
    rw [readOn_refused (step_of_refused hawaits (.inl hdict)), hfeed]
    rfl
  · next hclose hoperator heof hdict =>
    refine Ends.mono (member_follows hoperand hitems hfacing hlength hclose hdict) ?_
    intro y d'' hlater' hfollows
    exact hfollows.congr hlater.options hcounters

theorem items_follow {n : Nat} (hoperand : OperandFollows n) (hitems : ItemsFollow n) :
    ItemsFollow (n + 1) := by
  intro d base ts done opened items outer h hlength
  match ts with
  | [] => exact items_missing h
  | t :: us => exact items_present hoperand hitems h (Nat.lt_of_succ_lt_succ hlength)

/-- Where no token is left, a dictionary is not closed. -/
theorem entries_missing {done : List (Operand × Span)} {holes : List Hole} {opened : Span}
    {entries : List (String × Operand)}
    (h : Facing d base [] ⟨done, holes, some ⟨opened, entries.reverse⟩⟩) :
    Ends (dictEntries entries) d
      (Follows d base [] ⟨done, holes, some ⟨opened, entries.reverse⟩⟩ fun x =>
        deliver ⟨done, holes, none⟩ (.dictionary x.1) (opened.join x.2)) := by
  rw [dictEntries]
  refine Reads.bind (advance_reads h.consistent) ?_ ?_
  · intro t d' hlater htake hcounters
    rw [h.feed, Feed.prepend_nil, Feed.take_eq_ok_iff] at htake
    obtain ⟨hhead, hfeed⟩ := htake
    have hthrow : Ends (MonadExcept.throw (.misplaced t .keyOrDictClose) :
        Call (List (String × Operand) × Span)) d'
        (Follows d base [] ⟨done, holes, some ⟨opened, entries.reverse⟩⟩ fun x =>
          deliver ⟨done, holes, none⟩ (.dictionary x.1) (opened.join x.2)) := by
      refine Ends.throw hlater.consistent ?_
      show readOn _ base _ [] = _
      rw [readOn_of_head (isIdle_of_dict _ _ _) hhead rfl, hfeed]
      rfl
    have hends := h.endsOperands hhead
    obtain ⟨lexeme, span⟩ := t
    cases lexeme with
    | operator keyword => exact hthrow
    | eof => exact hthrow
    | _ => exact absurd hends (by simp [Lexeme.endsOperands])
  · intro e d' htake
    rw [h.feed, Feed.prepend_nil, Feed.take_eq_error_iff] at htake
    obtain ⟨e', hhead, rfl, hfeed⟩ := htake
    show readOn _ base _ [] = _
    rw [readOn_of_fault hhead, hfeed]

/-- One more entry, whose key has been used, and the others after it. -/
theorem value_follows {n : Nat} (hoperand : OperandFollows n) (hentries : EntriesFollow n)
    {done : List (Operand × Span)} {holes : List Hole} {opened : Span}
    {entries : List (String × Operand)} {key : String}
    (h : Facing d base ts ⟨done, .value opened entries.reverse key :: holes, none⟩)
    (hlength : ts.length ≤ n) :
    Ends (do
        let (x, _) ← operand
        dictEntries (entries ++ [(key, x)])) d
      (Follows d base ts ⟨done, .value opened entries.reverse key :: holes, none⟩ fun x =>
        deliver ⟨done, holes, none⟩ (.dictionary x.1) (opened.join x.2)) := by
  refine Ends.bind (hoperand h hlength ⟨rfl, trivial⟩) ?_ ?_
  · intro x d' hlater hfollows
    obtain ⟨hcounters, left, hfeed, hless, hrun⟩ := hfollows
    have hentry : deliver ⟨done, .value opened entries.reverse key :: holes, none⟩ x.1 x.2 =
        ⟨done, holes, some ⟨opened, (entries ++ [(key, x.1)]).reverse⟩⟩ := by
      rw [List.reverse_append]
      rfl
    simp only [hentry] at hrun
    have hfacing : Facing d' base left
        ⟨done, holes, some ⟨opened, (entries ++ [(key, x.1)]).reverse⟩⟩ :=
      h.later hlater hcounters rfl hfeed
    refine Ends.mono (hentries hfacing (by omega)) ?_
    intro y d'' hlater' hfollows'
    exact hfollows'.after hlater.options hcounters (Nat.le_of_lt hless) hrun
  · intro e d' hlater hfollows
    exact hfollows.fail

/-- The entries of a dictionary from the next token on. -/
theorem entries_present {n : Nat} (hoperand : OperandFollows n) (hentries : EntriesFollow n)
    {done : List (Operand × Span)} {holes : List Hole} {opened : Span}
    {entries : List (String × Operand)} {t : Token} {us : List Token}
    (h : Facing d base (t :: us) ⟨done, holes, some ⟨opened, entries.reverse⟩⟩)
    (hlength : us.length ≤ n) :
    Ends (dictEntries entries) d
      (Follows d base (t :: us) ⟨done, holes, some ⟨opened, entries.reverse⟩⟩ fun x =>
        deliver ⟨done, holes, none⟩ (.dictionary x.1) (opened.join x.2)) := by
  obtain ⟨d', hadvance, hlater, hcounters, hfeed⟩ := h.advance
  rw [dictEntries]
  refine Ends.run hadvance hlater ?_
  split
  · next hclose =>
    refine Ends.pure hlater.consistent ⟨hcounters, us, hfeed, Nat.lt_succ_self _, ?_⟩
    rw [run_cons_ok (step_dictClose hclose), List.reverse_reverse]
  · next key hkey =>
    have hrun : run d.options.maxNesting ⟨done, holes, some ⟨opened, entries.reverse⟩⟩
        (t :: us) = run d.options.maxNesting
          ⟨done, .value opened entries.reverse key :: holes, none⟩ us :=
      run_cons_ok (step_key hkey)
    have hfacing : Facing d' base us ⟨done, .value opened entries.reverse key :: holes, none⟩ :=
      h.later hlater hcounters rfl hfeed
    refine Ends.mono (value_follows hoperand hentries hfacing hlength) ?_
    intro y d'' hlater' hfollows
    exact hfollows.after hlater.options hcounters (Nat.le_succ _) hrun
  · next hclose hname =>
    -- what is neither a key nor the end is used
    have hstep : step d.options.maxNesting ⟨done, holes, some ⟨opened, entries.reverse⟩⟩ t =
        .error (.misplaced t .keyOrDictClose, true) := by
      cases hl : t.lexeme <;> simp_all [step, refuse]
    refine Ends.throw hlater.consistent ?_
    show readOn _ base _ (t :: us) = _
    rw [readOn_refused hstep, hfeed]
    rfl

theorem entries_follow {n : Nat} (hoperand : OperandFollows n) (hentries : EntriesFollow n) :
    EntriesFollow (n + 1) := by
  intro d base ts done holes opened entries h hlength
  match ts with
  | [] => exact entries_missing h
  | t :: us =>
    have hless : us.length < n := Nat.lt_of_succ_lt_succ hlength
    exact entries_present hoperand hentries h (Nat.le_of_lt hless)

theorem containers_follow (n : Nat) : ItemsFollow n ∧ EntriesFollow n := by
  induction n with
  | zero =>
    refine ⟨?_, ?_⟩
    · intro d base ts done opened items outer h hlength
      exact absurd hlength (Nat.not_lt_zero _)
    · intro d base ts done holes opened entries h hlength
      exact absurd hlength (Nat.not_lt_zero _)
  | succ n ih =>
    have hoperand : OperandFollows n := operand_follows ih.1 ih.2
    exact ⟨items_follow hoperand ih.1, entries_follow hoperand ih.2⟩

/-- **Operands**: those before the next operator are what the reader comes to. -/
theorem operands_reads {d : Descent} {base : Feed} {ts : List Token}
    {done : List (Operand × Span)} (h : Facing d base ts ⟨done.reverse, [], none⟩) :
    Reads (operands done) d
      (readOn d.options.maxNesting base ⟨done.reverse, [], none⟩ ts) := by
  rw [operands]
  refine Reads.bind (peek_reads h.consistent) ?_ ?_
  · intro t d' hlater hlook hcounters
    obtain ⟨hhead, hfeed⟩ := Feed.look_eq_ok_iff.mp hlook
    have hfacing : Facing d' base ts ⟨done.reverse, [], none⟩ :=
      h.later hlater hcounters rfl (hfeed.trans h.feed)
    split
    · next hends =>
      rcases h.head hhead with ⟨us, -, hnot⟩ | ⟨rfl, hbase, -⟩
      · exact absurd hends (by simp [hnot])
      · refine Ends.pure hlater.consistent ⟨?_, hcounters⟩
        rw [hfacing.feed, Feed.prepend_nil, readOn_idle hbase, List.reverse_reverse]
    · next hends =>
      have hne : ts ≠ [] := by
        rcases h.head hhead with ⟨us, rfl, -⟩ | ⟨-, -, hends'⟩
        · simp
        · exact absurd hends' hends
      have hoperand : OperandFollows ts.length :=
        operand_follows (containers_follow ts.length).1 (containers_follow ts.length).2
      refine Ends.bind (hoperand hfacing (Nat.le_refl _) ⟨rfl, hne⟩) ?_ ?_
      · intro x d₂ hlater₂ hfollows
        obtain ⟨hcounters₂, left, hfeed₂, hless, hrun⟩ := hfollows
        have hmember : deliver ⟨done.reverse, [], none⟩ x.1 x.2 =
            ⟨(done ++ [x]).reverse, [], none⟩ := by
          rw [List.reverse_append]
          rfl
        simp only [hmember, hlater.options] at hrun
        have hfacing₂ : Facing d₂ base left ⟨(done ++ [x]).reverse, [], none⟩ :=
          hfacing.later hlater₂ hcounters₂ rfl hfeed₂
        have hothers := operands_reads hfacing₂
        rw [hlater₂.options, hlater.options, ← readOn_congr hrun] at hothers
        refine Ends.mono hothers ?_
        intro y d₃ hlater₃ hfound
        cases y with
        | ok xs => exact ⟨hfound.1, hfound.2.trans (hcounters₂.trans hcounters)⟩
        | error e => exact hfound
      · intro e d₂ hlater₂ hfollows
        exact hfollows.congr hlater.options hcounters
  · intro e d' hlook
    obtain ⟨e', hhead, rfl, hfeed⟩ := Feed.look_eq_error_iff.mp hlook
    obtain ⟨rfl, hbase, hpast⟩ := h.fault hhead
    show readOn _ base _ [] = _
    rw [readOn_of_fault hbase, hfeed, hpast]
termination_by ts.length

end Operands

end Descent

/-! ## Calls -/

/-- What a phrase that is read in some way comes to. Where no operator follows, it
    is what the tokens before the end or a fault come to. -/
def Feed.call (limit : Nat) (read : Phrase → Except Failure Invocation)
    (expected : Expectation) : Feed → Except (ParseError × Feed) (Invocation × Feed)
  | .phrase ph rest =>
    match read ph with
    | .ok call => .ok (call, rest)
    | .error f => .error (f.error, ph.leave f.left rest)
  | .finish pending eof =>
    match OperandReader.start.run limit pending with
    | .refused e left => .error (e, .finish left eof)
    | .unfinished reader => .error ((reader.refuse eof).1, .finish [] eof)
    | .complete _ => .error (.misplaced eof expected, .finish [] eof)
  | .fault pending e rest =>
    match OperandReader.start.run limit pending with
    | .refused e' left => .error (e', .fault left e rest)
    | _ => .error (.lexical e, rest)
  | .stuck pending e =>
    match OperandReader.start.run limit pending with
    | .refused e' left => .error (e', .stuck left e)
    | _ => .error (.lexical e, .stuck [] e)

theorem Feed.call_phrase_eq_ok_iff {limit : Nat} {read : Phrase → Except Failure Invocation}
    {expected : Expectation} {ph : Phrase} {rest rest' : Feed} {c : Invocation} :
    Feed.call limit read expected (.phrase ph rest) = .ok (c, rest') ↔
      read ph = .ok c ∧ rest' = rest := by
  rw [Feed.call]
  cases read ph <;> simp [eq_comm]

theorem Feed.call_phrase_eq_error_iff {limit : Nat} {read : Phrase → Except Failure Invocation}
    {expected : Expectation} {ph : Phrase} {rest rest' : Feed} {e : ParseError} :
    Feed.call limit read expected (.phrase ph rest) = .error (e, rest') ↔
      ∃ f, read ph = .error f ∧ e = f.error ∧ rest' = ph.leave f.left rest := by
  rw [Feed.call]
  cases read ph <;> simp [eq_comm]

namespace OperandReader

variable {limit : Nat} {ts : List Token}

/-- The operands of a phrase, as the reader comes to them. -/
theorem readOn_phrase (keyword : String) (place : Span) (rest : Feed) :
    start.readOn limit (.phrase ⟨[], keyword, place⟩ rest) ts =
      match Phrase.operands limit ⟨ts, keyword, place⟩ with
      | .ok xs => .ok (xs, .phrase ⟨[], keyword, place⟩ rest)
      | .error f => .error (f.error, Phrase.leave ⟨ts, keyword, place⟩ f.left rest) := by
  unfold readOn Phrase.operands
  cases hrun : start.run limit ts with
  | complete xs => rfl
  | refused e left => simp [Feed.prepend, Phrase.leave]
  | unfinished r =>
    cases hrefuse : r.refuse ⟨.operator keyword, place⟩ with
    | mk e used => cases used <;> simp [Feed.head, Feed.tail, Phrase.leave, Phrase.token, hrefuse]

/-- Operands that cannot be read are no call. -/
theorem call_of_readOn_error {base : Feed} (hbase : base.Bare) {e : ParseError} {rest : Feed}
    (h : start.readOn limit base ts = .error (e, rest))
    {read : Phrase → Except Failure Invocation} (expected : Expectation)
    (hread : ∀ ph f, Phrase.operands limit ph = .error f → read ph = .error f) :
    (base.prepend ts).call limit read expected = .error (e, rest) := by
  cases base with
  | phrase p rest' =>
    obtain ⟨pending, keyword, place⟩ := p
    obtain rfl : pending = [] := hbase
    rw [readOn_phrase] at h
    simp only [Feed.prepend, List.append_nil, Feed.call]
    cases hxs : Phrase.operands limit ⟨ts, keyword, place⟩ with
    | ok xs => simp [hxs] at h
    | error f =>
      rw [hread _ f hxs]
      simpa [hxs] using h
  | finish pending eof =>
    obtain rfl : pending = [] := hbase
    unfold readOn at h
    simp only [Feed.prepend, List.append_nil, Feed.call]
    cases hrun : start.run limit ts with
    | complete xs => simp [hrun, Feed.head] at h
    | unfinished r => simpa [hrun, Feed.head, Feed.tail] using h
    | refused e' left => simpa [hrun, Feed.prepend] using h
  | fault pending e' rest' =>
    obtain rfl : pending = [] := hbase
    unfold readOn at h
    simp only [Feed.prepend, List.append_nil, Feed.call]
    cases hrun : start.run limit ts <;>
      simpa [hrun, Feed.head, Feed.pastFault, Feed.prepend] using h
  | stuck pending e' =>
    obtain rfl : pending = [] := hbase
    unfold readOn at h
    simp only [Feed.prepend, List.append_nil, Feed.call]
    cases hrun : start.run limit ts <;>
      simpa [hrun, Feed.head, Feed.pastFault, Feed.prepend] using h

/-- Operands that can be read are those of a phrase, or the end comes after them. -/
theorem of_readOn_ok {base : Feed} (hbase : base.Bare) {xs : List (Operand × Span)}
    {rest : Feed} (h : start.readOn limit base ts = .ok (xs, rest)) :
    rest = base ∧
      ((∃ keyword place rest', base = .phrase ⟨[], keyword, place⟩ rest' ∧
          Phrase.operands limit ⟨ts, keyword, place⟩ = .ok xs) ∨
        ∃ eof, base = .finish [] eof ∧ start.run limit ts = .complete xs) := by
  cases base with
  | phrase p rest' =>
    obtain ⟨pending, keyword, place⟩ := p
    obtain rfl : pending = [] := hbase
    rw [readOn_phrase] at h
    cases hxs : Phrase.operands limit ⟨ts, keyword, place⟩ with
    | error f => simp [hxs] at h
    | ok ys =>
      obtain ⟨rfl, rfl⟩ : ys = xs ∧ _ = rest := by simpa [hxs] using h
      exact ⟨rfl, .inl ⟨keyword, place, rest', rfl, hxs⟩⟩
  | finish pending eof =>
    obtain rfl : pending = [] := hbase
    unfold readOn at h
    cases hrun : start.run limit ts with
    | complete ys =>
      obtain ⟨rfl, rfl⟩ : ys = xs ∧ _ = rest := by simpa [hrun, Feed.head] using h
      exact ⟨rfl, .inr ⟨eof, rfl, rfl⟩⟩
    | refused e left => simp [hrun, Feed.head] at h
    | unfinished r => simp [hrun, Feed.head] at h
  | fault pending e' rest' =>
    obtain rfl : pending = [] := hbase
    unfold readOn at h
    cases hrun : start.run limit ts <;> simp [hrun, Feed.head] at h
  | stuck pending e' =>
    obtain rfl : pending = [] := hbase
    unfold readOn at h
    cases hrun : start.run limit ts <;> simp [hrun, Feed.head] at h

end OperandReader

namespace Descent

variable {d : Descent}

/-- Operands, an operator, and what is made of both. -/
theorem call_reads {make : List (Operand × Span) → Token → Call Invocation}
    {read : Phrase → Except Failure Invocation} {expected : Expectation}
    (hd : d.Consistent) (hdepth : d.containers.depth = 0)
    (hread : ∀ ph f, Phrase.operands d.options.maxNesting ph = .error f → read ph = .error f)
    (hmake : ∀ ph xs, Phrase.operands d.options.maxNesting ph = .ok xs →
      (∃ call, read ph = .ok call ∧ make xs ph.token = pure call) ∨
      ∃ e, read ph = .error ⟨e, none⟩ ∧ make xs ph.token = throw e)
    (hfinish : ∀ xs eof, eof.lexeme = .eof → make xs eof = throw (.misplaced eof expected)) :
    Reads (do
        let xs ← operands []
        let t ← advance
        make xs t) d
      (d.feed.call d.options.maxNesting read expected) := by
  obtain ⟨base, ts, hfeed, hbare⟩ := d.feed.exists_bare
  have hfacing : Facing d base ts ⟨[].reverse, [], none⟩ := ⟨hd, hbare, hfeed, hdepth⟩
  have htidy := tidy_feed d
  rw [hfeed] at htidy ⊢
  refine Reads.bind (operands_reads hfacing) ?_ ?_
  · intro xs d₁ hlater₁ hxs hcounters₁
    obtain ⟨hfeed₁, hcases⟩ := OperandReader.of_readOn_ok hbare hxs
    refine Reads.bind (advance_reads hlater₁.consistent) ?_ ?_
    · intro t d₂ hlater₂ htake hcounters₂
      have hcounters := hcounters₂.trans hcounters₁
      rw [hfeed₁, Feed.take_eq_ok_iff] at htake
      obtain ⟨hhead, hfeed₂⟩ := htake
      rcases hcases with ⟨keyword, place, rest, rfl, hoperands⟩ | ⟨eof, rfl, hrun⟩
      · obtain rfl : Phrase.token ⟨ts, keyword, place⟩ = t := Except.ok.inj hhead
        have hfeed₂' : d₂.feed = rest := hfeed₂
        simp only [Feed.prepend, List.append_nil, Feed.call]
        rcases hmake _ xs hoperands with ⟨call, hcall, hmade⟩ | ⟨e, hcall, hmade⟩
        · rw [hmade, hcall]
          exact Ends.pure hlater₂.consistent ⟨by rw [hfeed₂'], hcounters⟩
        · rw [hmade, hcall]
          refine Ends.throw hlater₂.consistent ?_
          show Except.error (e, rest) = _
          rw [hfeed₂']
      · obtain rfl : eof = t := Except.ok.inj hhead
        have hfeed₂' : d₂.feed = .finish [] eof := hfeed₂
        rw [hfinish xs eof htidy.of_prepend.2.2]
        refine Ends.throw hlater₂.consistent ?_
        simp only [Feed.prepend, List.append_nil, Feed.call, hrun, hfeed₂']
    · intro e d₂ htake
      -- what has been looked at is not a fault
      rw [hfeed₁, Feed.take_eq_error_iff] at htake
      obtain ⟨e', hhead, -⟩ := htake
      rcases hcases with ⟨keyword, place, rest, rfl, -⟩ | ⟨eof, rfl, -⟩
      · exact absurd hhead (by simp [Feed.head])
      · exact absurd hhead (by simp [Feed.head])
  · intro e d' he
    exact OperandReader.call_of_readOn_error hbare he expected hread

/-- **Invocations**: they are read as a phrase is. -/
theorem invocation_reads (hd : d.Consistent) (hdepth : d.containers.depth = 0)
    (p : Production) :
    Reads (invocation p) d
      (d.feed.call d.options.maxNesting (Phrase.invocation d.options.maxNesting p)
        (.keywordOf p)) := by
  refine call_reads hd hdepth ?_ ?_ ?_
  · intro ph f hf
    unfold Phrase.invocation
    rw [hf]
  · intro ph xs hxs
    unfold Phrase.invocation invoke
    simp only [hxs, Phrase.token, Phrase.operator?]
    cases (Operator.lookup? ph.keyword).filter (·.production = p) with
    | none => exact .inr ⟨_, rfl, rfl⟩
    | some op =>
      cases hcheck : op.check (xs.map (·.1)) (xs.map (·.2)) ph.place with
      | error e => exact .inr ⟨e, by simp [hcheck], by simp [hcheck]⟩
      | ok u => exact .inl ⟨_, by simp [hcheck]; rfl, by simp [hcheck]; rfl⟩
  · intro xs eof heof
    unfold invoke
    rw [heof]

theorem undefinedInvocation_reads (hd : d.Consistent) (hdepth : d.containers.depth = 0) :
    Reads undefinedInvocation d
      (d.feed.call d.options.maxNesting (Phrase.undefinedInvocation d.options.maxNesting)
        .operator) := by
  refine call_reads hd hdepth ?_ ?_ ?_
  · intro ph f hf
    unfold Phrase.undefinedInvocation
    rw [hf]
  · intro ph xs hxs
    refine .inl ⟨_, ?_, rfl⟩
    unfold Phrase.undefinedInvocation
    rw [hxs]
    rfl
  · intro xs eof heof
    unfold invokeUndefined
    rw [heof]

end Descent

end PageContent
