import PageContent.Proofs.Failures

/-! # What a request leaves

    A session goes on from where a request has stopped. What is ahead then has been
    ahead before.

    * **Failures** leave the last of the tokens in front of an operator, or use up the
      operator as well.
    * **Leftovers**: what is left of a feed after some of its phrases, with some of the
      tokens in front of it read, or with a fault in it met.
    * **Sessions**: every request leaves a leftover of the feed.
-/

namespace PageContent

/-! ## Failures -/

theorem OperandReader.suffix_of_run {limit : Nat} {r : OperandReader} {ts left : List Token}
    {e : ParseError} (h : r.run limit ts = .refused e left) : left <:+ ts := by
  obtain ⟨before, t, after, rfl, -, hleft⟩ := exists_of_run_refused h
  rcases hleft with rfl | rfl
  · exact (List.suffix_cons t left).trans (List.suffix_append before _)
  · exact List.suffix_append before _

/-- A failure leaves the last of the tokens in front of the operator, or uses it up. -/
theorem Phrase.Refusal.suffix {limit : Nat} {ph : Phrase} {f : Failure}
    (h : ph.Refusal limit f) {left : List Token} (hleft : f.left = some left) :
    left <:+ ph.pending := by
  cases h with
  | token hrun => exact Option.some.inj hleft ▸ OperandReader.suffix_of_run hrun
  | operator expected hkept =>
    obtain rfl : _ = some left := hleft
    rcases hkept with hnone | hempty | hall
    · exact absurd hnone (by simp)
    · exact Option.some.inj hempty ▸ List.nil_suffix
    · exact Option.some.inj hall ▸ List.suffix_refl _
  | arity => exact absurd hleft (by simp)
  | type => exact absurd hleft (by simp)
  | nesting => exact absurd hleft (by simp)

namespace Recognizer

theorem EndRefusal.suffix {limit : Nat} {pending left : List Token} {eof : Token}
    {e : ParseError} (h : EndRefusal limit pending eof (e, left)) : left <:+ pending := by
  cases h with
  | token hrun => exact OperandReader.suffix_of_run hrun
  | dangling => exact List.suffix_refl _
  | eof expected hkept =>
    rcases hkept with rfl | rfl
    · exact List.nil_suffix
    · exact List.suffix_refl _

/-- A fault that is not met leaves the last of the tokens in front of it. -/
theorem suffix_of_meetFault {limit : Nat} {pending left : List Token} {fault : LexicalError}
    {state : RecognizerState} {e : ParseError}
    (h : meetFault limit pending fault state = (e, some left)) : left <:+ pending := by
  rcases meetFault_cases limit pending fault state with hmet | ⟨e', left', hrun, hmet⟩
  · exact absurd (hmet.symm.trans h) (by simp)
  · obtain ⟨-, hleft⟩ := Prod.mk.inj (hmet.symm.trans h)
    exact Option.some.inj hleft ▸ OperandReader.suffix_of_run hrun

/-- The tokens that stay in front of a fault are all or none. -/
theorem keptTokens_suffix (pending : List Token) (state : RecognizerState) :
    keptTokens pending state <:+ pending := by
  cases state with
  | between top outer => exact List.suffix_refl _
  | within part outer =>
    unfold keptTokens
    dsimp only
    split
    · exact List.nil_suffix
    · exact List.suffix_refl _

end Recognizer

/-! ## Leftovers -/

/-- What can be left of a feed. -/
inductive Feed.Leaves : Feed → Feed → Prop where
  /-- The last of the tokens in front of an operator, a fault, or an end. -/
  | phrase {ph : Phrase} {left : List Token} (h : left <:+ ph.pending) (rest : Feed) :
      Leaves (.phrase ph rest) (.phrase { ph with pending := left } rest)
  | fault {pending left : List Token} (h : left <:+ pending) (e : LexicalError) (rest : Feed) :
      Leaves (.fault pending e rest) (.fault left e rest)
  | finish {pending left : List Token} (h : left <:+ pending) (eof : Token) :
      Leaves (.finish pending eof) (.finish left eof)
  | stuck {pending left : List Token} (h : left <:+ pending) (e : LexicalError) :
      Leaves (.stuck pending e) (.stuck left e)
  /-- What is behind an operator. -/
  | past {ph : Phrase} {rest left : Feed} (h : Leaves rest left) : Leaves (.phrase ph rest) left
  /-- What is behind a fault that has been met, behind tokens that have been in front of
      the fault. -/
  | met {pending kept : List Token} (h : kept <:+ pending) (e : LexicalError) (rest : Feed) :
      Leaves (.fault pending e rest) (rest.prepend kept)

namespace Feed.Leaves

theorem refl (feed : Feed) : Leaves feed feed := by
  cases feed with
  | phrase ph rest => exact phrase (List.suffix_refl _) rest
  | fault pending e rest => exact fault (List.suffix_refl _) e rest
  | finish pending eof => exact finish (List.suffix_refl _) eof
  | stuck pending e => exact stuck (List.suffix_refl _) e

/-- A failure in the first phrase. -/
theorem leave {limit : Nat} {ph : Phrase} {f : Failure} (h : ph.Refusal limit f) (rest : Feed) :
    Leaves (.phrase ph rest) (ph.leave f.left rest) := by
  unfold Phrase.leave
  split
  · next left hleft => exact phrase (h.suffix hleft) rest
  · exact past (refl rest)

theorem pastFault (feed : Feed) : Leaves feed feed.pastFault := by
  unfold Feed.pastFault
  split
  · next e rest =>
    have h := met (List.suffix_refl []) e rest
    rwa [prepend_nil] at h
  · exact refl feed

end Feed.Leaves

namespace Recognizer

variable {o : Options}

/-- The feed of an answer or of an error. -/
def leftover : Except (ParseError × Feed) (Node × Feed) → Feed
  | .ok (_, rest) => rest
  | .error (_, rest) => rest

theorem leaves_run (state : RecognizerState) (feed : Feed) :
    feed.Leaves (leftover (run o state feed)) := by
  fun_induction run o state feed with
  | case1 state ph rest state' hstep ih => exact .past ih
  | case2 state ph rest n hstep => exact .past (.refl rest)
  | case3 state ph rest f hstep => exact .leave (refusal_of_step hstep) rest
  | case4 state pending eof n hfin => exact .finish List.nil_suffix eof
  | case5 state pending eof e left hfin => exact .finish (refusal_of_finish hfin).suffix eof
  | case6 state pending fault rest e left hmeet =>
    exact .fault (suffix_of_meetFault hmeet) fault rest
  | case7 state pending fault rest e hmeet => exact .met (keptTokens_suffix _ _) fault rest
  | case8 state pending fault e left hmeet => exact .stuck (suffix_of_meetFault hmeet) fault
  | case9 state pending fault e hmeet => exact .stuck (keptTokens_suffix _ _) fault

theorem leaves_runConstruction (limit : Nat) (drawn : List Invocation) (feed : Feed) :
    feed.Leaves (leftover (runConstruction limit drawn feed)) := by
  have hstop : ∀ (drawn : List Invocation) (t : Token) (feed : Feed),
      leftover (runConstruction.stop drawn t feed) = feed := by
    intro drawn t feed
    unfold runConstruction.stop
    split <;> rfl
  fun_induction runConstruction limit drawn feed with
  | case1 drawn ph rest op hop call hmade ih => exact .past ih
  | case2 drawn ph rest op hop f hfail => exact .leave (Phrase.refuses_invocation _ f hfail) rest
  | case3 drawn ph rest hop => exact hstop drawn _ _ ▸ .refl _
  | case4 drawn pending eof => exact hstop drawn _ _ ▸ .refl _
  | case5 drawn pending e rest => exact .met (List.suffix_refl _) e rest
  | case6 drawn pending e => exact .refl _

theorem leaves_read (p : Production) (feed : Feed) :
    feed.Leaves (leftover (read o p feed)) := by
  unfold read
  split
  · exact leaves_runConstruction _ _ feed
  · exact leaves_run _ feed

/-- A production that must reach the end leaves what it leaves by itself, or what is behind
    a fault there. -/
theorem leaves_readAll (p : Production) (feed : Feed) :
    ∃ mid, feed.Leaves mid ∧ mid.Leaves (leftover (readAll o p feed)) := by
  have hread := leaves_read (o := o) p feed
  refine ⟨_, hread, ?_⟩
  unfold readAll
  cases hr : read o p feed with
  | error failure => exact .refl _
  | ok found =>
    obtain ⟨n, rest⟩ := found
    have hpast : ∀ failure, expectEnd rest = .error failure → rest.Leaves failure.2 := by
      intro failure hfailure
      unfold expectEnd at hfailure
      split at hfailure
      · split at hfailure
        · exact absurd hfailure (by simp)
        · exact Except.error.inj hfailure ▸ .refl rest
      · exact Except.error.inj hfailure ▸ .pastFault rest
    dsimp only
    split
    · next failure hfailure => exact hpast failure hfailure
    · exact .refl rest

end Recognizer

namespace Session

/-- **Requests** leave a leftover of what is ahead. -/
theorem exists_leaves_of_answer (s : Session) (r : Request) :
    ∃ mid, s.feed.Leaves mid ∧ mid.Leaves (s.answer r).2.feed := by
  have hfeed : (s.answer r).2.feed = Recognizer.leftover (s.find r) := by
    unfold answer
    split
    · next n rest hfind => rw [hfind]; rfl
    · next e rest hfind => rw [hfind]; rfl
  rw [hfeed]
  cases r with
  | part p => exact ⟨_, Recognizer.leaves_read p s.feed, .refl _⟩
  | whole p => exact Recognizer.leaves_readAll p s.feed

end Session

end PageContent
