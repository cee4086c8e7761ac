import PageContent.Descent
import PageContent.Proofs.Lexing

/-! # The buffer of the descent

    What the calls that look ahead and move on do to the stream, whatever is in
    the buffer already.

    * **Ahead**: the feed of a state is that of its unread tokens and of all that
      the lexer will find. Reading more tokens into the buffer does not change it.
    * **Later states**: calls add to the buffer and move the position, and they
      keep both within bounds.
    * **Ends**: a call has a result, in a later state. There is a rule for each
      way of making calls, so that no proof looks into a run again.
-/

namespace PageContent

/-! ## Unread tokens in front of a feed -/

namespace Feed

/-- One more unread token in front of a feed. The end of the stream hides what
    comes after it. -/
def push (t : Token) (feed : Feed) : Feed :=
  if t.lexeme = .eof then .finish [] t else cons t feed

def pushAll (ts : List Token) (feed : Feed) : Feed :=
  ts.foldr push feed

theorem pushAll_append (ts us : List Token) (feed : Feed) :
    pushAll (ts ++ us) feed = pushAll ts (pushAll us feed) :=
  List.foldr_append

/-- Tokens before an operator wait for it. -/
theorem pushAll_pending {ts : List Token} (h : ∀ t ∈ ts, t.lexeme.endsOperands = false)
    (feed : Feed) : pushAll ts feed = feed.prepend ts := by
  induction ts with
  | nil => exact (prepend_nil feed).symm
  | cons t ts ih =>
    have ht : t.lexeme.endsOperands = false := h t (by simp)
    have hts := ih fun u hu => h u (by simp [hu])
    show push t (pushAll ts feed) = _
    rw [hts, push, if_neg (by intro heof; simp [heof, Lexeme.endsOperands] at ht), cons]
    split
    · next k hk => simp [hk, Lexeme.endsOperands] at ht
    · exact prepend_prepend [t] ts feed

/-- The scan of a lexer begins with its next token. -/
theorem push_ofLexer {l l' : Lexer} {t : Token} (h : l.next = (.ok t, l')) :
    push t (ofScan (.ofLexer l')) = ofScan (.ofLexer l) := by
  by_cases ht : t.lexeme = .eof
  · rw [push, if_pos ht, Lexer.ofLexer_finish h ht, ofScan]
  · rw [push, if_neg ht, Lexer.ofLexer_token h ht, ofScan_token]

/-- What is left of a feed when its next token is used. The end of the stream is
    never used up. -/
def tail : Feed → Feed
  | .phrase ⟨[], _, _⟩ rest => rest
  | .phrase ⟨_ :: ts, keyword, place⟩ rest => .phrase ⟨ts, keyword, place⟩ rest
  | .fault (_ :: ts) e rest => .fault ts e rest
  | .finish (_ :: ts) eof => .finish ts eof
  | .stuck (_ :: ts) e => .stuck ts e
  | feed => feed

theorem head_prepend_cons (t : Token) (ts : List Token) (feed : Feed) :
    (feed.prepend (t :: ts)).head = .ok t := by
  cases feed <;> rfl

theorem tail_prepend_cons (t : Token) (ts : List Token) (feed : Feed) :
    (feed.prepend (t :: ts)).tail = feed.prepend ts := by
  cases feed <;> rfl

theorem head_push (t : Token) (feed : Feed) : (push t feed).head = .ok t := by
  obtain ⟨lexeme, span⟩ := t
  unfold push
  split
  · rfl
  · unfold cons
    split
    · next k hk =>
      simp only at hk
      rw [hk]
      rfl
    · exact head_prepend_cons _ [] feed

theorem tail_push {t : Token} (h : t.lexeme ≠ .eof) (feed : Feed) :
    (push t feed).tail = feed := by
  unfold push
  rw [if_neg h]
  unfold cons
  split
  · rfl
  · rw [tail_prepend_cons, prepend_nil]

/-- Look at the next token. -/
def look (feed : Feed) : Except (ParseError × Feed) (Token × Feed) :=
  match feed.head with
  | .ok t => .ok (t, feed)
  | .error e => .error (.lexical e, feed.pastFault)

/-- Use the next token. -/
def take (feed : Feed) : Except (ParseError × Feed) (Token × Feed) :=
  match feed.head with
  | .ok t => .ok (t, feed.tail)
  | .error e => .error (.lexical e, feed.pastFault)

theorem look_eq_ok_iff {feed rest : Feed} {t : Token} :
    look feed = .ok (t, rest) ↔ feed.head = .ok t ∧ rest = feed := by
  unfold look
  cases feed.head <;> simp [eq_comm]

theorem look_eq_error_iff {feed rest : Feed} {e : ParseError} :
    look feed = .error (e, rest) ↔
      ∃ e', feed.head = .error e' ∧ e = .lexical e' ∧ rest = feed.pastFault := by
  unfold look
  cases feed.head <;> simp [eq_comm]

theorem take_eq_ok_iff {feed rest : Feed} {t : Token} :
    take feed = .ok (t, rest) ↔ feed.head = .ok t ∧ rest = feed.tail := by
  unfold take
  cases feed.head <;> simp [eq_comm]

theorem take_eq_error_iff {feed rest : Feed} {e : ParseError} :
    take feed = .error (e, rest) ↔
      ∃ e', feed.head = .error e' ∧ e = .lexical e' ∧ rest = feed.pastFault := by
  unfold take
  cases feed.head <;> simp [eq_comm]

/-- Look for the next operator, or for the end of the stream. -/
def seek : Feed → Except (ParseError × Feed) (Token × Feed)
  | .phrase ph rest => .ok (ph.token, .phrase ph rest)
  | .finish pending eof => .ok (eof, .finish pending eof)
  | .fault pending e rest => .error (.lexical e, rest.prepend pending)
  | .stuck pending e => .error (.lexical e, .stuck pending e)

/-- The operator that comes next, or the end of the stream, if it can be seen. -/
def keyword? : Feed → Option Token
  | .phrase ph _ => some ph.token
  | .finish _ eof => some eof
  | .fault _ _ _ => none
  | .stuck _ _ => none

theorem seek_eq_ok_iff {feed rest : Feed} {t : Token} :
    seek feed = .ok (t, rest) ↔ feed.keyword? = some t ∧ rest = feed := by
  cases feed <;> simp [seek, keyword?, eq_comm]

theorem seek_of_error {feed : Feed} {e : LexicalError} (h : feed.head = .error e)
    (ts : List Token) :
    seek (feed.prepend ts) = .error (.lexical e, feed.pastFault.prepend ts) := by
  match feed with
  | .fault [] e' rest =>
    obtain rfl := Except.error.inj h
    simp [prepend, seek, pastFault]
  | .stuck [] e' =>
    obtain rfl := Except.error.inj h
    simp [prepend, seek, pastFault]
  | .fault (t :: us) e' rest => exact absurd h (by simp [head])
  | .stuck (t :: us) e' => exact absurd h (by simp [head])
  | .phrase ⟨[], keyword, place⟩ rest => exact absurd h (by simp [head])
  | .phrase ⟨t :: us, keyword, place⟩ rest => exact absurd h (by simp [head])
  | .finish [] eof => exact absurd h (by simp [head])
  | .finish (t :: us) eof => exact absurd h (by simp [head])

theorem seek_push {t : Token} (h : t.lexeme.endsOperands = true) (ts : List Token)
    (feed : Feed) : seek ((push t feed).prepend ts) = .ok (t, (push t feed).prepend ts) := by
  obtain ⟨lexeme, span⟩ := t
  cases lexeme with
  | operator keyword => rfl
  | eof => rfl
  | _ => exact absurd h (by simp [Lexeme.endsOperands])

/-! ### Size -/

/-- The number of tokens and faults in a feed, without its end. -/
def size : Feed → Nat
  | .phrase p rest => p.pending.length + 1 + rest.size
  | .fault pending _ rest => pending.length + 1 + rest.size
  | .finish pending _ => pending.length
  | .stuck pending _ => pending.length

theorem size_prepend (ts : List Token) (feed : Feed) :
    (feed.prepend ts).size = ts.length + feed.size := by
  cases feed <;> simp [prepend, size] <;> omega

theorem size_tail_le (feed : Feed) : feed.tail.size ≤ feed.size := by
  unfold tail
  split <;> simp [size]

theorem size_pastFault_le (feed : Feed) : feed.pastFault.size ≤ feed.size := by
  unfold pastFault
  split <;> simp [size]

/-! ### Tidy feeds -/

/-- The tokens of each phrase are before its operator, and the end is an end. -/
def Tidy : Feed → Prop
  | .phrase p rest => (∀ t ∈ p.pending, t.lexeme.endsOperands = false) ∧ rest.Tidy
  | .fault pending _ rest => (∀ t ∈ pending, t.lexeme.endsOperands = false) ∧ rest.Tidy
  | .finish pending eof =>
    (∀ t ∈ pending, t.lexeme.endsOperands = false) ∧ eof.lexeme = .eof
  | .stuck pending _ => ∀ t ∈ pending, t.lexeme.endsOperands = false

theorem Tidy.prepend {ts : List Token} (hts : ∀ t ∈ ts, t.lexeme.endsOperands = false)
    {feed : Feed} (h : feed.Tidy) : (feed.prepend ts).Tidy := by
  have happend : ∀ us : List Token, (∀ t ∈ us, t.lexeme.endsOperands = false) →
      ∀ t ∈ ts ++ us, t.lexeme.endsOperands = false := by
    intro us hus t ht
    rcases List.mem_append.mp ht with ht | ht
    · exact hts t ht
    · exact hus t ht
  cases feed with
  | phrase p rest => exact ⟨happend _ h.1, h.2⟩
  | fault pending e rest => exact ⟨happend _ h.1, h.2⟩
  | finish pending eof => exact ⟨happend _ h.1, h.2⟩
  | stuck pending e => exact happend _ h

theorem Tidy.push (t : Token) {feed : Feed} (h : feed.Tidy) : (push t feed).Tidy := by
  unfold Feed.push
  split
  · next ht => exact ⟨by simp, ht⟩
  · next ht =>
    unfold cons
    split
    · exact ⟨by simp, h⟩
    · next hoperator =>
      refine h.prepend (List.forall_mem_singleton.mpr ?_)
      cases hl : t.lexeme <;> simp_all [Lexeme.endsOperands]

theorem tidy_ofLexer (l : Lexer) : (ofScan (.ofLexer l)).Tidy := by
  fun_induction Scan.ofLexer l with
  | case1 l t l' hnext heof => exact ⟨by simp, heof⟩
  | case2 l t l' hnext hne _ ih =>
    have hpush : ofScan (.token t (.ofLexer l')) = Feed.push t (ofScan (.ofLexer l')) := by
      rw [ofScan_token, Feed.push, if_neg hne]
    rw [hpush]
    exact ih.push t
  | case3 l e l' hnext hlt ih => exact ⟨by simp, ih⟩
  | case4 l e l' hnext hge => exact List.forall_mem_nil _

end Feed

/-- A lexer that does not get past a fault has not moved at all. -/
theorem Lexer.eq_of_error {l l' : Lexer} {e : LexicalError} (h : l.next = (.error e, l'))
    (hge : ¬ l'.remaining < l.remaining) : l' = l := by
  obtain ⟨rest, position, dataNext⟩ := l
  obtain ⟨f, offset, passed, hread, -, rfl⟩ := of_next_error h
  simp only [remaining, List.length_drop, Bool.toNat_false, Nat.add_zero, Nat.not_lt] at hge
  cases dataNext with
  | true =>
    simp only [Bool.toNat_true] at hge
    omega
  | false =>
    -- at the end of the bytes there is no fault, so the gap is what must be empty
    have hne : rest ≠ [] := by
      intro hnil
      subst hnil
      simp [reading, gap, Reading.blanks, Reading.ofBytes] at hread
    have hlen := List.length_pos_iff.mpr hne
    simp only [Bool.toNat_false] at hge
    have hgap : gap ⟨rest, position, false⟩ = 0 := by omega
    have hpassed : passed = 0 := by omega
    simp [hgap, hpassed]

/-- A fault comes first in what a lexer finds. It is met again only if the lexer
    cannot get past it. -/
theorem Feed.ofLexer_error {l l' : Lexer} {e : LexicalError} (h : l.next = (.error e, l')) :
    (ofScan (.ofLexer l)).head = .error e ∧
      (ofScan (.ofLexer l)).pastFault = ofScan (.ofLexer l') := by
  have hscan := Lexer.ofLexer_error_eq h
  split at hscan
  · rw [hscan]
    exact ⟨rfl, rfl⟩
  · next hge =>
    rw [Lexer.eq_of_error h hge, hscan]
    exact ⟨rfl, rfl⟩

namespace Descent

/-! ## States -/

/-- The tokens that have been read and not used. -/
def unread (d : Descent) : List Token :=
  d.buffer.drop d.position

/-- All that is ahead. -/
def feed (d : Descent) : Feed :=
  .pushAll d.unread (.ofScan (.ofLexer d.lexer))

/-- How many groups, containers and compatibility sections are open. -/
def counters (d : Descent) : Nat × Nat × Nat :=
  (d.groups.depth, d.containers.depth, d.compatibility)

/-- The buffer ends at the end of the stream if not before, and the position is
    within the buffer and not past that end. The guards are those of the options. -/
structure Consistent (d : Descent) : Prop where
  eof_last : ∀ t ∈ d.buffer.dropLast, t.lexeme ≠ .eof
  position_le : d.position ≤ d.buffer.length
  before_eof : ∀ t ∈ d.buffer.take d.position, t.lexeme ≠ .eof
  groups : d.groups = { groupGuard d.options with depth := d.groups.depth }
  containers : d.containers = { containerGuard d.options with depth := d.containers.depth }

/-- What calls may do to a state: tokens are added and used, never taken back. -/
structure Later (d d' : Descent) : Prop where
  buffer : d.buffer <+: d'.buffer
  position : d.position ≤ d'.position
  options : d'.options = d.options
  log : d'.log = d.log
  consistent : d'.Consistent
  /-- Nothing is ahead that was not before. -/
  size : d'.feed.size ≤ d.feed.size

theorem Later.refl {d : Descent} (h : d.Consistent) : Later d d :=
  ⟨List.prefix_refl _, Nat.le_refl _, rfl, rfl, h, Nat.le_refl _⟩

theorem Later.trans {d d' d'' : Descent} (h : Later d d') (h' : Later d' d'') : Later d d'' :=
  ⟨h.buffer.trans h'.buffer, Nat.le_trans h.position h'.position, h'.options.trans h.options,
    h'.log.trans h.log, h'.consistent, Nat.le_trans h'.size h.size⟩

theorem tidy_feed (d : Descent) : d.feed.Tidy := by
  unfold feed
  induction d.unread with
  | nil => exact Feed.tidy_ofLexer d.lexer
  | cons t ts ih => exact ih.push t

/-! ## Calls that end -/

theorem Call.bind_of_ok {α β : Type} {x : Call α} {f : α → Call β} {a : α} {d d' : Descent}
    (h : x d = some (.ok a, d')) : (x >>= f) d = f a d' := by
  show Option.bind (x d) _ = _
  rw [h]
  rfl

theorem Call.bind_of_error {α β : Type} {x : Call α} {f : α → Call β} {e : ParseError}
    {d d' : Descent} (h : x d = some (.error e, d')) :
    (x >>= f) d = some (.error e, d') := by
  show Option.bind (x d) _ = _
  rw [h]
  rfl

/-- The call ends in a later state, and its answer and that state are such. -/
def Ends {α : Type} (x : Call α) (d : Descent) (Q : Except ParseError α → Descent → Prop) :
    Prop :=
  ∃ r d', x d = some (r, d') ∧ Later d d' ∧ Q r d'

section Ends

variable {α β : Type} {x : Call α} {f : α → Call β} {d : Descent}
  {Q R : Except ParseError α → Descent → Prop} {S : Except ParseError β → Descent → Prop}

theorem Ends.mono (h : Ends x d Q) (himp : ∀ r d', Later d d' → Q r d' → R r d') :
    Ends x d R := by
  obtain ⟨r, d', hrun, hlater, hq⟩ := h
  exact ⟨r, d', hrun, hlater, himp r d' hlater hq⟩

theorem Ends.pure {a : α} (hd : d.Consistent) (h : R (.ok a) d) :
    Ends (Pure.pure a) d R :=
  ⟨.ok a, d, rfl, Later.refl hd, h⟩

theorem Ends.throw {e : ParseError} (hd : d.Consistent) (h : R (.error e) d) :
    Ends (MonadExcept.throw e) d R :=
  ⟨.error e, d, rfl, Later.refl hd, h⟩

/-- One call after the other; the second one is not made if the first fails. -/
theorem Ends.bind (hx : Ends x d Q)
    (hok : ∀ a d', Later d d' → Q (.ok a) d' → Ends (f a) d' S)
    (herror : ∀ e d', Later d d' → Q (.error e) d' → S (.error e) d') :
    Ends (x >>= f) d S := by
  obtain ⟨r, d', hrun, hlater, hq⟩ := hx
  cases r with
  | ok a =>
    obtain ⟨r', d'', hrun', hlater', hs⟩ := hok a d' hlater hq
    exact ⟨r', d'', (Call.bind_of_ok hrun).trans hrun', hlater.trans hlater', hs⟩
  | error e => exact ⟨.error e, d', Call.bind_of_error hrun, hlater, herror e d' hlater hq⟩

/-- A call that is known to succeed, and what comes after it. -/
theorem Ends.run {a : α} {d' : Descent} (hrun : x d = some (.ok a, d')) (hlater : Later d d')
    (h : Ends (f a) d' S) : Ends (x >>= f) d S := by
  obtain ⟨r, d'', hrun', hlater', hs⟩ := h
  exact ⟨r, d'', (Call.bind_of_ok hrun).trans hrun', hlater.trans hlater', hs⟩

theorem Ends.get {f : Descent → Call β} (h : Ends (f d) d S) : Ends (MonadState.get >>= f) d S :=
  h

theorem Ends.modify {g : Descent → Descent} {f : PUnit → Call β} (hlater : Later d (g d))
    (h : Ends (f ⟨⟩) (g d) S) : Ends (modify g >>= f) d S := by
  obtain ⟨r, d', hrun, hlater', hs⟩ := h
  exact ⟨r, d', hrun, hlater.trans hlater', hs⟩

end Ends

/-- The call finds something in the feed: a value, with the same things open as
    before, or an error. -/
def Reads {α : Type} (x : Call α) (d : Descent)
    (found : Except (ParseError × Feed) (α × Feed)) : Prop :=
  Ends x d fun r d' =>
    match r with
    | .ok a => found = .ok (a, d'.feed) ∧ d'.counters = d.counters
    | .error e => found = .error (e, d'.feed)

theorem Reads.bind {α β : Type} {x : Call α} {f : α → Call β} {d : Descent}
    {found : Except (ParseError × Feed) (α × Feed)} {S : Except ParseError β → Descent → Prop}
    (hx : Reads x d found)
    (hok : ∀ a d', Later d d' → found = .ok (a, d'.feed) → d'.counters = d.counters →
      Ends (f a) d' S)
    (herror : ∀ e d', found = .error (e, d'.feed) → S (.error e) d') :
    Ends (x >>= f) d S := by
  refine Ends.bind hx ?_ ?_
  · intro a d' hlater hfound
    exact hok a d' hlater hfound.1 hfound.2
  · intro e d' hlater hfound
    exact herror e d' hfound

/-! ## Reading into the buffer -/

section Reading

variable {d : Descent} {n : Nat} {t : Token} {l : Lexer} {e : LexicalError}

/-- The state after a token has been read from the lexer. -/
def read (d : Descent) (t : Token) (l : Lexer) : Descent :=
  { d with lexer := l, buffer := d.buffer ++ [t] }

theorem fill_of_lt {index : Nat} (h : index < d.buffer.length) :
    fill index d = some (.ok (), d) := by
  rw [fill]
  show (if _ then _ else _ : Call Unit) d = _
  rw [if_neg (by omega)]
  rfl

theorem fill_length (h : ∀ t ∈ d.buffer, t.lexeme ≠ .eof) :
    fill d.buffer.length d =
      match d.lexer.next with
      | (.ok t, l) => some (.ok (), d.read t l)
      | (.error e, l) => some (.error (.lexical e), { d with lexer := l }) := by
  have hlast : ¬ (d.buffer.getLast?.any fun t => t.lexeme = .eof) = true := by
    intro hlast
    cases hgetLast : d.buffer.getLast? with
    | none => simp [hgetLast] at hlast
    | some t =>
      rw [hgetLast] at hlast
      exact h t (List.mem_of_getLast? hgetLast) (by simpa using hlast)
  rw [fill]
  show (if _ then _ else _ : Call Unit) d = _
  rw [if_pos ⟨Nat.le_refl _, hlast⟩]
  cases hnext : d.lexer.next with
  | mk r l =>
    cases r with
    | ok t =>
      have htoken : nextToken d = some (.ok t, { d with lexer := l }) := by
        simp [nextToken, hnext]
      rw [Call.bind_of_ok htoken]
      -- one token is enough
      show fill d.buffer.length (d.read t l) = _
      rw [fill_of_lt (by simp [read])]
    | error e =>
      have htoken : nextToken d = some (.error (.lexical e), { d with lexer := l }) := by
        simp [nextToken, hnext]
      rw [Call.bind_of_error htoken]

theorem peekNth_of_fill {d' : Descent} (hfill : fill (d.position + n) d = some (.ok (), d'))
    (hposition : d'.position = d.position) (ht : d'.unread[n]? = some t) :
    peekNth n d = some (.ok t, d') := by
  rw [unread, List.getElem?_drop, hposition] at ht
  obtain ⟨hlt, -⟩ := List.getElem?_eq_some_iff.mp ht
  obtain ⟨last, hlast⟩ : ∃ last, d'.buffer.length = last + 1 :=
    Nat.exists_eq_add_one_of_ne_zero (by omega)
  have hmin : min (d.position + n) last = d.position + n := by omega
  calc peekNth n d
      = (do
          let last ← Call.decrease d'.buffer.length
          Call.index d'.buffer (min (d.position + n) last)) d' := Call.bind_of_ok hfill
    _ = Call.index d'.buffer (d.position + n) d' := by
      rw [hlast]
      show Call.index d'.buffer (min (d.position + n) last) d' = _
      rw [hmin]
    _ = some (.ok t, d') := by
      unfold Call.index
      rw [ht]
      rfl

theorem peekNth_of_error {d' : Descent} {e : ParseError}
    (hfill : fill (d.position + n) d = some (.error e, d')) :
    peekNth n d = some (.error e, d') := by
  show (fill (d.position + n) >>= fun _ => _) d = _
  exact Call.bind_of_error hfill

theorem unread_read (h : d.position ≤ d.buffer.length) (t : Token) (l : Lexer) :
    (d.read t l).unread = d.unread ++ [t] :=
  List.drop_append_of_le_length h

theorem feed_read (h : d.position ≤ d.buffer.length) (hnext : d.lexer.next = (.ok t, l)) :
    (d.read t l).feed = d.feed := by
  unfold feed
  rw [unread_read h, Feed.pushAll_append]
  show Feed.pushAll d.unread (Feed.push t (Feed.ofScan (Scan.ofLexer l))) = _
  rw [Feed.push_ofLexer hnext]

/-- Reading a token leads to a later state, if the end has not been read yet. -/
theorem later_read (hd : d.Consistent) (h : ∀ t ∈ d.buffer, t.lexeme ≠ .eof)
    (hnext : d.lexer.next = (.ok t, l)) : Later d (d.read t l) where
  buffer := List.prefix_append _ _
  position := Nat.le_refl _
  options := rfl
  log := rfl
  size := Nat.le_of_eq (congrArg Feed.size (feed_read hd.position_le hnext))
  consistent :=
    { eof_last := by simpa [read] using h
      position_le := by
        have := hd.position_le
        simp only [read, List.length_append]
        omega
      before_eof := by
        simp only [read]
        rw [List.take_append_of_le_length hd.position_le]
        exact hd.before_eof
      groups := hd.groups
      containers := hd.containers }

/-- Meeting a fault leads to a later state, and behind the fault. -/
theorem later_fault (hd : d.Consistent)
    (hunread : ∀ t ∈ d.unread, t.lexeme.endsOperands = false)
    (hnext : d.lexer.next = (.error e, l)) :
    Later d { d with lexer := l } ∧ ∃ feed : Feed, d.feed = feed.prepend d.unread ∧
      feed.head = .error e ∧
      ({ d with lexer := l } : Descent).feed = feed.pastFault.prepend d.unread := by
  obtain ⟨hhead, hpast⟩ := Feed.ofLexer_error hnext
  have hfeed : d.feed = (Feed.ofScan (.ofLexer d.lexer)).prepend d.unread :=
    Feed.pushAll_pending hunread _
  have hfeed' : ({ d with lexer := l } : Descent).feed =
      (Feed.ofScan (.ofLexer l)).prepend d.unread :=
    Feed.pushAll_pending hunread _
  have hsize : ({ d with lexer := l } : Descent).feed.size ≤ d.feed.size := by
    rw [hfeed, hfeed', Feed.size_prepend, Feed.size_prepend, ← hpast]
    exact Nat.add_le_add_left (Feed.size_pastFault_le _) _
  refine ⟨⟨List.prefix_refl _, Nat.le_refl _, rfl, rfl, ?_, hsize⟩, _, hfeed, hhead, ?_⟩
  · exact ⟨hd.eof_last, hd.position_le, hd.before_eof, hd.groups, hd.containers⟩
  · rw [hfeed', hpast]

/-- What a call that looks past some tokens finds: the token after them, or a fault in
    its place. -/
def Sees (ts : List Token) (d : Descent) (r : Except ParseError Token) (d' : Descent) : Prop :=
  match r with
  | .ok t => d'.feed = d.feed ∧ d'.counters = d.counters ∧ ∃ us, d'.unread = ts ++ t :: us
  | .error e => ∃ e' feed, e = .lexical e' ∧ d.feed = Feed.prepend ts feed ∧
      feed.head = .error e' ∧ d'.feed = feed.pastFault.prepend ts

/-- The token is in the buffer. -/
theorem peekNth_buffered (hd : d.Consistent) (hlt : n < d.unread.length) :
    Ends (peekNth n) d (Sees (d.unread.take n) d) := by
  have hget : d.unread[n]? = some d.unread[n] := List.getElem?_eq_getElem hlt
  have hindex : d.position + n < d.buffer.length := by
    simp only [unread, List.length_drop] at hlt
    omega
  have hsplit : d.unread = d.unread.take n ++ d.unread[n] :: d.unread.drop (n + 1) := by
    rw [List.getElem_cons_drop, List.take_append_drop]
  exact ⟨_, d, peekNth_of_fill (fill_of_lt hindex) rfl hget, Later.refl hd, rfl, rfl, _, hsplit⟩

/-- The token is the next one of the lexer. -/
theorem peekNth_length (hd : d.Consistent)
    (hbefore : ∀ t ∈ d.unread, t.lexeme.endsOperands = false) :
    Ends (peekNth d.unread.length) d (Sees d.unread d) := by
  -- neither a used token nor one before an operator is the end of the stream
  have hbuffer : ∀ t ∈ d.buffer, t.lexeme ≠ .eof := by
    intro t ht heof
    rw [← List.take_append_drop d.position d.buffer] at ht
    rcases List.mem_append.mp ht with ht | ht
    · exact hd.before_eof t ht heof
    · exact absurd (hbefore t ht) (by simp [heof, Lexeme.endsOperands])
  have hindex : d.position + d.unread.length = d.buffer.length := by
    have := hd.position_le
    simp only [unread, List.length_drop]
    omega
  have hfill := fill_length hbuffer
  rw [← hindex] at hfill
  cases hnext : d.lexer.next with
  | mk r l =>
    rw [hnext] at hfill
    cases r with
    | ok t =>
      have hunread := unread_read hd.position_le t l
      have hget : (d.read t l).unread[d.unread.length]? = some t := by
        rw [hunread]
        simp
      exact ⟨_, d.read t l, peekNth_of_fill hfill rfl hget, later_read hd hbuffer hnext,
        feed_read hd.position_le hnext, rfl, [], hunread⟩
    | error e =>
      obtain ⟨hlater, feed, hfeed, hhead, hfeed'⟩ := later_fault hd hbefore hnext
      exact ⟨_, _, peekNth_of_error hfill, hlater, e, feed, rfl, hfeed, hhead, hfeed'⟩

/-- **Looking ahead**: past tokens that are before an operator, the next token is
    found without a change of what is ahead, or a fault is met. -/
theorem peekNth_ends (hd : d.Consistent) (hn : n ≤ d.unread.length)
    (hbefore : ∀ t ∈ d.unread.take n, t.lexeme.endsOperands = false) :
    Ends (peekNth n) d (Sees (d.unread.take n) d) := by
  rcases Nat.lt_or_eq_of_le hn with hlt | rfl
  · exact peekNth_buffered hd hlt
  · rw [List.take_length] at hbefore ⊢
    exact peekNth_length hd hbefore

theorem head_feed {ts : List Token} (h : d.unread = t :: ts) : d.feed.head = .ok t := by
  unfold feed
  rw [h]
  exact Feed.head_push t _

theorem peek_ends (hd : d.Consistent) :
    Ends peek d fun r d' =>
      match r with
      | .ok t => d'.feed = d.feed ∧ d'.counters = d.counters ∧ ∃ us, d'.unread = t :: us
      | .error e => ∃ e', e = .lexical e' ∧ d.feed.head = .error e' ∧
          d'.feed = d.feed.pastFault := by
  refine Ends.mono (peekNth_ends hd (Nat.zero_le _) (by simp)) ?_
  intro r d' hlater hfound
  cases r with
  | ok t => exact hfound
  | error e =>
    obtain ⟨e', feed, rfl, hfeed, hhead, hfeed'⟩ := hfound
    rw [List.take_zero, Feed.prepend_nil] at hfeed hfeed'
    subst hfeed
    exact ⟨e', rfl, hhead, hfeed'⟩

theorem peek_reads (hd : d.Consistent) : Reads peek d d.feed.look := by
  refine Ends.mono (peek_ends hd) ?_
  intro r d' hlater hfound
  unfold Feed.look
  cases r with
  | ok t =>
    obtain ⟨hfeed, hcounters, us, hunread⟩ := hfound
    rw [← hfeed, head_feed hunread]
    exact ⟨rfl, hcounters⟩
  | error e =>
    obtain ⟨e', rfl, hhead, hfeed'⟩ := hfound
    simp [hhead, hfeed']

/-- Using a token that has been looked at. -/
theorem proceed_ends {us : List Token} (hd : d.Consistent) (hunread : d.unread = t :: us)
    (ht : t.lexeme ≠ .eof) :
    Later d { d with position := d.position + 1 } ∧
      ({ d with position := d.position + 1 } : Descent).feed = d.feed.tail := by
  have hbuffer : d.buffer[d.position]? = some t := by
    have hget : d.unread[0]? = some t := by rw [hunread]; rfl
    rwa [unread, List.getElem?_drop] at hget
  obtain ⟨hlt, hget⟩ := List.getElem?_eq_some_iff.mp hbuffer
  have hfeed : ({ d with position := d.position + 1 } : Descent).feed = d.feed.tail := by
    have hdrop : d.buffer.drop (d.position + 1) = us := by
      rw [← List.tail_drop, ← unread, hunread]
      rfl
    unfold feed
    rw [hunread, unread, hdrop]
    exact (Feed.tail_push ht _).symm
  refine ⟨⟨List.prefix_refl _, Nat.le_succ _, rfl, rfl, ?_, ?_⟩, hfeed⟩
  · refine ⟨hd.eof_last, hlt, ?_, hd.groups, hd.containers⟩
    intro u hu
    simp only [List.take_add_one, hbuffer, Option.toList_some] at hu
    rcases List.mem_append.mp hu with hu | hu
    · exact hd.before_eof u hu
    · rw [List.mem_singleton.mp hu]
      exact ht
  · rw [hfeed]
    exact Feed.size_tail_le _

theorem advance_reads (hd : d.Consistent) : Reads advance d d.feed.take := by
  refine Ends.bind (peek_ends hd) ?_ ?_
  · intro t d' hlater hfound
    obtain ⟨hfeed, hcounters, us, hunread⟩ := hfound
    unfold Feed.take
    rw [← hfeed, head_feed hunread]
    split
    · next ht =>
      -- the end of the stream stays
      have hself : d'.feed.tail = d'.feed := by
        unfold feed
        rw [hunread]
        show (Feed.push t _).tail = Feed.push t _
        rw [Feed.push, if_pos ht]
        rfl
      exact Ends.pure hlater.consistent ⟨by rw [hself], hcounters⟩
    · next ht =>
      obtain ⟨hlater', hfeed'⟩ := proceed_ends hlater.consistent hunread ht
      exact Ends.modify hlater' (Ends.pure hlater'.consistent ⟨by rw [hfeed'], hcounters⟩)
  · intro e d' hlater hfound
    obtain ⟨e', rfl, hhead, hfeed'⟩ := hfound
    unfold Feed.take
    simp [hhead, hfeed']

/-! ## The next operator -/

theorem feed_of_unread {ts us : List Token} (h : d.unread = ts ++ us)
    (hts : ∀ t ∈ ts, t.lexeme.endsOperands = false) :
    d.feed = (Feed.pushAll us (.ofScan (.ofLexer d.lexer))).prepend ts := by
  unfold feed
  rw [h, Feed.pushAll_append, Feed.pushAll_pending hts]

/-- A token that is no operator has been looked past. -/
theorem looked_past {ts us : List Token} (h : d.unread = ts ++ t :: us)
    (hts : ∀ u ∈ ts, u.lexeme.endsOperands = false) (ht : t.lexeme.endsOperands = false) :
    ts.length + 1 ≤ d.unread.length ∧ ts.length < d.feed.size ∧
      ∀ u ∈ d.unread.take (ts.length + 1), u.lexeme.endsOperands = false := by
  have hsplit : d.unread = (ts ++ [t]) ++ us := by simpa using h
  have hlength : (ts ++ [t]).length = ts.length + 1 := List.length_append
  have hbefore : ∀ u ∈ ts ++ [t], u.lexeme.endsOperands = false := by
    intro u hu
    rcases List.mem_append.mp hu with hu | hu
    · exact hts u hu
    · rw [List.mem_singleton.mp hu]
      exact ht
  refine ⟨?_, ?_, ?_⟩
  · rw [hsplit, List.length_append]
    omega
  · rw [feed_of_unread hsplit hbefore, Feed.size_prepend]
    omega
  · rw [hsplit, ← hlength, List.take_left]
    exact hbefore

theorem peekKeywordFrom_reads {d : Descent} {n : Nat} (hd : d.Consistent)
    (hn : n ≤ d.unread.length)
    (hbefore : ∀ t ∈ d.unread.take n, t.lexeme.endsOperands = false) :
    Reads (peekKeywordFrom n) d d.feed.seek := by
  rw [peekKeywordFrom]
  refine Ends.bind (peekNth_ends hd hn hbefore) ?_ ?_
  · intro t d' hlater hfound
    obtain ⟨hfeed, hcounters, us, hunread⟩ := hfound
    split
    · next ht =>
      refine Ends.pure hlater.consistent ⟨?_, hcounters⟩
      rw [← hfeed, feed_of_unread hunread hbefore]
      exact Feed.seek_push ht _ _
    · next ht =>
      obtain ⟨hn', hsize, hbefore'⟩ := looked_past hunread hbefore (Bool.eq_false_iff.mpr ht)
      rw [List.length_take_of_le hn] at hn' hsize hbefore'
      have hless : d'.feed.size - (n + 1) < d.feed.size - n := by
        rw [← hfeed]
        omega
      have hnext := peekKeywordFrom_reads hlater.consistent hn' hbefore'
      rw [hfeed] at hnext
      refine Ends.mono hnext ?_
      intro r d'' hlater' hseek
      cases r with
      | ok u => exact ⟨hseek.1, hseek.2.trans hcounters⟩
      | error e => exact hseek
  · intro e d' hlater hfound
    obtain ⟨e', feed, rfl, hfeed, hhead, hfeed'⟩ := hfound
    rw [hfeed, hfeed']
    exact Feed.seek_of_error hhead _
termination_by d.feed.size - n

theorem peekKeyword_reads (hd : d.Consistent) : Reads peekKeyword d d.feed.seek := by
  apply peekKeywordFrom_reads hd
  · exact Nat.zero_le _
  · simp

end Reading

end Descent

end PageContent
