import PageContent.Proofs.Segmentation
import PageContent.Proofs.RoundTrip
import PageContent.Proofs.Origins
import PageContent.Proofs.Leftovers

/-! # Image data is confined

    The lexer reads image data between `ID` and `EI` and nowhere else. So there is no
    image data in a tree but the single operand of `EI`.

    * **Calls** of the lexer one after the other, faults included. Only right after `ID`
      the lexer looks for data, and it stops in front of the `EI` that it has found.
    * **Feeds** confine data if it stands alone in front of `EI`. The feed of a lexer
      does, and every leftover does, wherever reading has stopped.
    * **Invocations** made of such phrases have no data within an operand, so the text of
      all their other operands is ASCII.
-/

namespace PageContent

/-! ## Calls of the lexer -/

namespace Lexer

/-- The lexer after some calls. -/
def after (l : Lexer) : Nat → Lexer
  | 0 => l
  | i + 1 => (l.after i).next.2

/-- What a call gives, the first one being number 0. -/
def call (l : Lexer) (i : Nat) : Except LexicalError Token :=
  (l.after i).next.1

/-- Data is next right after `ID`. -/
theorem dataNext_iff {l : Lexer} :
    l.next.2.dataNext = true ↔ ∃ t, l.next.1 = .ok t ∧ t.lexeme = .operator "ID" := by
  cases hnext : l.next with
  | mk r l' =>
    cases r with
    | error e =>
      obtain ⟨f, offset, passed, -, -, rfl⟩ := of_next_error hnext
      simp
    | ok t =>
      obtain ⟨width, hread, -, rfl⟩ := of_next hnext
      cases hdata : l.dataNext with
      | false => simp
      | true =>
        -- what is read as data is no operator
        obtain ⟨bytes, position, dataNext⟩ := l
        obtain rfl : dataNext = true := hdata
        obtain ⟨-, -, -, -, -, -, -, rfl, -⟩ := of_next_data hnext
        simp

/-- Only where data is next it is read. -/
theorem dataNext_of_next {l l' : Lexer} {t : Token} {data : List UInt8}
    (h : l.next = (.ok t, l')) (ht : t.lexeme = .inlineData data) : l.dataNext = true := by
  obtain ⟨width, hread, -, -⟩ := of_next h
  cases hdata : l.dataNext with
  | true => rfl
  | false =>
    rw [reading, hdata, if_neg Bool.false_ne_true, ht] at hread
    exact absurd hread Reading.ne_inlineData

/-- Where data is next, it is read with the `EI` after it. -/
theorem exists_end_of_dataNext {l l' : Lexer} {t : Token} (hdata : l.dataNext = true)
    (h : l.next = (.ok t, l')) :
    ∃ data place l'', t.lexeme = .inlineData data ∧ l'.dataNext = false ∧
      l'.next = (.ok ⟨.operator "EI", place⟩, l'') := by
  obtain ⟨bytes, position, dataNext⟩ := l
  obtain rfl : dataNext = true := hdata
  obtain ⟨sep, data, gap, r, -, -, hdelimits, rfl, rfl⟩ := of_next_data h
  exact ⟨data, _, _, rfl, rfl, next_mark hdelimits _⟩

/-- **Order of calls**: data is given between `ID` and `EI`. -/
theorem call_of_inlineData {l : Lexer} (hl : l.dataNext = false) {i : Nat} {t : Token}
    {data : List UInt8} (h : l.call i = .ok t) (ht : t.lexeme = .inlineData data) :
    ∃ j before fin, i = j + 1 ∧ l.call j = .ok before ∧ before.lexeme = .operator "ID" ∧
      l.call (i + 1) = .ok fin ∧ fin.lexeme = .operator "EI" := by
  have hnext : (l.after i).next = (.ok t, l.after (i + 1)) := Prod.ext h rfl
  have hdata := dataNext_of_next hnext ht
  obtain ⟨-, place, l'', -, -, hfin⟩ := exists_end_of_dataNext hdata hnext
  cases i with
  | zero => exact absurd (hl.symm.trans hdata) Bool.false_ne_true
  | succ j =>
    obtain ⟨before, hbefore, hid⟩ := dataNext_iff.mp hdata
    exact ⟨j, before, _, rfl, hbefore, hid, congrArg Prod.fst hfin, rfl⟩

/-- After `ID` data is given, or there is a fault. -/
theorem call_of_operator {l : Lexer} {i : Nat} {t : Token} (h : l.call i = .ok t)
    (ht : t.lexeme = .operator "ID") :
    (∃ e, l.call (i + 1) = .error e) ∨
      ∃ t' data, l.call (i + 1) = .ok t' ∧ t'.lexeme = .inlineData data := by
  have hdata : (l.after (i + 1)).dataNext = true := dataNext_iff.mpr ⟨t, h, ht⟩
  cases hcall : l.call (i + 1) with
  | error e => exact .inl ⟨e, rfl⟩
  | ok t' =>
    have hnext : (l.after (i + 1)).next = (.ok t', l.after (i + 2)) := Prod.ext hcall rfl
    obtain ⟨data, -, -, ht', -, -⟩ := exists_end_of_dataNext hdata hnext
    exact .inr ⟨t', data, rfl, ht'⟩

end Lexer

/-! ## Feeds -/

/-- None of the tokens is image data. -/
def IsPlain (ts : List Token) : Prop :=
  ∀ t ∈ ts, ∀ data, t.lexeme ≠ .inlineData data

theorem IsPlain.of_suffix {ts us : List Token} (h : IsPlain us) (hsuffix : ts <:+ us) :
    IsPlain ts :=
  fun t ht => h t (hsuffix.subset ht)

theorem IsPlain.append {ts us : List Token} (h : IsPlain ts) (h' : IsPlain us) :
    IsPlain (ts ++ us) := by
  intro t ht
  rcases List.mem_append.mp ht with ht | ht
  · exact h t ht
  · exact h' t ht

/-- In front of the operator there is no data, or nothing else, and then it is `EI`. -/
def Phrase.Confines (ph : Phrase) : Prop :=
  IsPlain ph.pending ∨
    ph.keyword = "EI" ∧ ∃ data place, ph.pending = [⟨.inlineData data, place⟩]

theorem Phrase.Confines.of_suffix {ph : Phrase} {left : List Token} (h : ph.Confines)
    (hsuffix : left <:+ ph.pending) : Confines { ph with pending := left } := by
  rcases h with hplain | ⟨hkeyword, data, place, hpending⟩
  · exact .inl (hplain.of_suffix hsuffix)
  · rw [hpending, List.suffix_cons_iff, List.suffix_nil] at hsuffix
    rcases hsuffix with rfl | rfl
    · exact .inr ⟨hkeyword, data, place, rfl⟩
    · exact .inl (List.forall_mem_nil _)

namespace Feed

/-- The tokens in front of the first operator, fault or end. -/
def front : Feed → List Token
  | .phrase ph _ => ph.pending
  | .fault pending _ _ => pending
  | .finish pending _ => pending
  | .stuck pending _ => pending

/-- Data is only in front of `EI`. What is behind a fault does not begin with data. -/
def Confines : Feed → Prop
  | .phrase ph rest => ph.Confines ∧ rest.Confines
  | .fault pending _ rest => IsPlain pending ∧ IsPlain rest.front ∧ rest.Confines
  | .finish pending _ => IsPlain pending
  | .stuck pending _ => IsPlain pending

theorem front_prepend (ts : List Token) (feed : Feed) :
    (feed.prepend ts).front = ts ++ feed.front := by
  cases feed <;> rfl

theorem Confines.prepend {ts : List Token} {feed : Feed} (h : feed.Confines) (hts : IsPlain ts)
    (hfront : IsPlain feed.front) : (feed.prepend ts).Confines := by
  have hall : IsPlain (ts ++ feed.front) := hts.append hfront
  cases feed with
  | phrase ph rest => exact ⟨.inl hall, h.2⟩
  | fault pending e rest => exact ⟨hall, h.2⟩
  | finish pending eof => exact hall
  | stuck pending e => exact hall

theorem Confines.of_mem_phrases {feed : Feed} (h : feed.Confines) {ph : Phrase}
    (hph : ph ∈ feed.phrases) : ph.Confines := by
  induction feed with
  | phrase ph' rest ih =>
    rcases List.mem_cons.mp hph with rfl | hph
    · exact h.1
    · exact ih h.2 hph
  | fault pending e rest ih => exact ih h.2.2 hph
  | finish pending eof => exact absurd hph List.not_mem_nil
  | stuck pending e => exact absurd hph List.not_mem_nil

/-- A token that is not data, in front of others that do not begin with data either unless
    the token is an operator. -/
theorem Confines.cons {t : Token} {feed : Feed} (h : feed.Confines)
    (ht : ∀ data, t.lexeme ≠ .inlineData data)
    (hfront : (∀ keyword, t.lexeme ≠ .operator keyword) → IsPlain feed.front) :
    (Feed.cons t feed).Confines ∧ IsPlain (Feed.cons t feed).front := by
  have hnil : IsPlain [] := List.forall_mem_nil _
  have hone : IsPlain [t] := List.forall_mem_singleton.mpr ht
  unfold Feed.cons
  split
  · exact ⟨⟨.inl hnil, h⟩, hnil⟩
  · next hoperator =>
    have hfront := hfront hoperator
    refine ⟨h.prepend hone hfront, ?_⟩
    rw [front_prepend]
    exact hone.append hfront

/-- Data in front of the `EI` that comes next. -/
theorem Confines.cons_data {data : List UInt8} {s place : Span} {feed : Feed}
    (h : (Feed.cons ⟨.operator "EI", place⟩ feed).Confines) :
    (Feed.cons ⟨.inlineData data, s⟩ (Feed.cons ⟨.operator "EI", place⟩ feed)).Confines :=
  ⟨.inr ⟨rfl, data, s, rfl⟩, h.2⟩

/-- **The feed of a lexer** confines data. It does not begin with data unless that is
    next. -/
theorem confines_ofLexer (l : Lexer) :
    (ofScan (Scan.ofLexer l)).Confines ∧
      (l.dataNext = false → IsPlain (ofScan (Scan.ofLexer l)).front) := by
  have hnil : IsPlain [] := List.forall_mem_nil _
  fun_induction Scan.ofLexer l with
  | case1 l t l' h heof => exact ⟨hnil, fun _ => hnil⟩
  | case2 l t l' h hne hlt ih =>
    rw [ofScan_token]
    cases hdata : l.dataNext with
    | true =>
      -- the data is in front of its terminator
      obtain ⟨data, place, l'', ht, -, hfin⟩ := Lexer.exists_end_of_dataNext hdata h
      obtain ⟨lexeme, s⟩ := t
      obtain rfl : lexeme = .inlineData data := ht
      rw [Lexer.ofLexer_token hfin (by simp), ofScan_token] at ih ⊢
      exact ⟨ih.1.cons_data, fun hflag => absurd hflag (by simp)⟩
    | false =>
      have ht : ∀ data, t.lexeme ≠ .inlineData data := by
        intro data heq
        exact absurd (hdata.symm.trans (Lexer.dataNext_of_next h heq)) Bool.false_ne_true
      have hfront : (∀ keyword, t.lexeme ≠ .operator keyword) →
          IsPlain (ofScan (Scan.ofLexer l')).front := by
        intro hoperator
        refine ih.2 (Bool.eq_false_iff.mpr fun hflag => ?_)
        have hflag' : l.next.2.dataNext = true := h ▸ hflag
        obtain ⟨t', ht', hid⟩ := Lexer.dataNext_iff.mp hflag'
        rw [h] at ht'
        exact hoperator "ID" (Except.ok.inj ht' ▸ hid)
      have hcons := ih.1.cons ht hfront
      exact ⟨hcons.1, fun _ => hcons.2⟩
  | case3 l e l' h hlt ih =>
    -- no data is next after a fault
    have hflag : l'.dataNext = false := by
      refine Bool.eq_false_iff.mpr fun hflag => ?_
      have hflag' : l.next.2.dataNext = true := h ▸ hflag
      obtain ⟨t, ht, -⟩ := Lexer.dataNext_iff.mp hflag'
      exact absurd (h ▸ ht) (by simp)
    exact ⟨⟨hnil, ih.2 hflag, ih.1⟩, fun _ => hnil⟩
  | case4 l e l' h hlt => exact ⟨hnil, fun _ => hnil⟩

theorem confines_ofBytes (bytes : List UInt8) : (ofBytes bytes).Confines :=
  (confines_ofLexer (Lexer.ofBytes bytes)).1

/-- A leftover confines data as the feed does. -/
theorem Confines.of_leaves {feed left : Feed} (h : feed.Confines) (hleaves : feed.Leaves left) :
    left.Confines := by
  induction hleaves with
  | phrase hsuffix rest => exact ⟨h.1.of_suffix hsuffix, h.2⟩
  | fault hsuffix e rest => exact ⟨h.1.of_suffix hsuffix, h.2⟩
  | finish hsuffix eof => exact IsPlain.of_suffix h hsuffix
  | stuck hsuffix e => exact IsPlain.of_suffix h hsuffix
  | past hleaves ih => exact ih h.2
  | met hsuffix e rest => exact h.2.2.prepend (h.1.of_suffix hsuffix) h.2.1

end Feed

/-! ## Invocations -/

namespace Operand

/-- The operand is image data. -/
def IsData (x : Operand) : Prop :=
  ∃ data, x = .inlineData data

/-- The text of the operand is ASCII, and its bytes are what is written for it. -/
structure Textual (x : Operand) : Prop where
  ascii : ∀ c ∈ x.text.toList, c.toNat < 128
  encode : Utf8.encode x.text = x.write

theorem textual_of_lexemes {x : Operand} (h : ∀ data, Lexeme.inlineData data ∉ x.lexemes) :
    x.Textual where
  ascii := by
    intro c hc
    rw [text, Byte.latin1, String.toList_ofList] at hc
    obtain ⟨b, hb, rfl⟩ := List.mem_map.mp hc
    rw [Byte.toNat_toChar]
    exact ascii_latin1 x h b hb
  encode := by
    cases x with
    | inlineData data => exact absurd List.mem_cons_self (h data)
    | _ => rfl

end Operand

namespace Invocation

/-- Image data is the single operand of `EI`. All other operands, those within operands
    included, are text. -/
structure ConfinesData (call : Invocation) : Prop where
  data : ∀ x ∈ call.operands, ∀ y : Operand, y.Within x → y.IsData →
    call.keyword = "EI" ∧ call.operands = [y]
  textual : ∀ x ∈ call.operands, ∀ y : Operand, y.Within x → ¬ y.IsData → y.Textual

/-- What says nothing but data is the data. -/
theorem operands_eq_of_lexemes {xs : List Operand} {data : List UInt8}
    (h : xs.flatMap Operand.lexemes = [.inlineData data]) : xs = [.inlineData data] := by
  cases xs with
  | nil => exact absurd h (by simp)
  | cons x xs =>
    rw [List.flatMap_cons, List.append_eq_singleton_iff] at h
    rcases h with ⟨hx, -⟩ | ⟨hx, hxs⟩
    · exact absurd hx (Operand.lexemes_ne_nil x)
    · obtain ⟨rfl, -⟩ := eq_inlineData_of_lexemes hx
      cases xs with
      | nil => rfl
      | cons y ys =>
        rw [List.flatMap_cons] at hxs
        exact absurd (List.append_eq_nil_iff.mp hxs).1 (Operand.lexemes_ne_nil y)

/-- Operands that are read from some tokens, which are plain or nothing but data. -/
theorem confinesData_of_lexemes {call : Invocation} {ts : List Token}
    (hlexemes : ts.map (·.lexeme) = call.operands.flatMap Operand.lexemes)
    (hts : IsPlain ts ∨ call.keyword = "EI" ∧ ∃ data place, ts = [⟨.inlineData data, place⟩]) :
    call.ConfinesData := by
  rcases hts with hplain | ⟨hkeyword, data, place, rfl⟩
  · -- no operand has any data
    have hnone : ∀ x ∈ call.operands, ∀ y : Operand, y.Within x →
        ∀ data, Lexeme.inlineData data ∉ y.lexemes := by
      intro x hx y hy data hmem
      have hmem' : Lexeme.inlineData data ∈ ts.map (·.lexeme) :=
        hlexemes ▸ List.mem_flatMap.mpr ⟨x, hx, hy.mem_lexemes _ hmem⟩
      obtain ⟨t, ht, heq⟩ := List.mem_map.mp hmem'
      exact hplain t ht data heq
    constructor
    case data =>
      rintro x hx y hy ⟨data, rfl⟩
      exact absurd List.mem_cons_self (hnone x hx _ hy data)
    case textual =>
      intro x hx y hy _
      exact Operand.textual_of_lexemes (hnone x hx y hy)
  · -- the data is the only operand
    have hoperands : call.operands = [.inlineData data] := operands_eq_of_lexemes hlexemes.symm
    have hself : ∀ x ∈ call.operands, ∀ y : Operand, y.Within x → y = .inlineData data := by
      intro x hx y hy
      rw [hoperands, List.mem_singleton] at hx
      subst hx
      cases hy
      rfl
    constructor
    case data =>
      intro x hx y hy _
      exact ⟨hkeyword, hself x hx y hy ▸ hoperands⟩
    case textual =>
      intro x hx y hy hdata
      exact absurd ⟨data, hself x hx y hy⟩ hdata

theorem confinesData_of_operands {limit : Nat} {ph : Phrase} (hph : ph.Confines)
    {xs : List (Operand × Span)} (hxs : ph.operands limit = .ok xs) (p : Production)
    (category : Option Category) : (ph.invoke p category xs).ConfinesData :=
  confinesData_of_lexemes (Grammar.lexemes_of_areOperands (Phrase.operands_eq_ok_iff.mp hxs)) hph

theorem confinesData_of_makes {limit : Nat} {ph : Phrase} {call : Invocation}
    (hph : ph.Confines) (h : ph.Makes limit call) : call.ConfinesData := by
  cases h with
  | known hmade =>
    obtain ⟨op, xs, -, -, hxs, -, rfl⟩ := Phrase.invocation_eq_ok_iff.mp hmade
    exact confinesData_of_operands hph hxs _ _
  | outside hop hmade =>
    obtain ⟨xs, hxs, rfl⟩ := Phrase.undefinedInvocation_eq_ok_iff.mp hmade
    exact confinesData_of_operands hph hxs _ _

end Invocation

/-! ## Trees -/

/-- Every invocation of a tree confines image data. -/
def Node.ConfinesData (n : Node) : Prop :=
  ∀ call ∈ n.invocations, call.ConfinesData

namespace Session

/-- What is ahead confines data. -/
def Confines (s : Session) : Prop :=
  s.feed.Confines

theorem confines_start (o : Options) (bytes : List UInt8) (log : ErrorLog) :
    (start o bytes log).Confines :=
  Feed.confines_ofBytes bytes

/-- **One request** leaves data confined. -/
theorem Confines.answer {s : Session} (h : s.Confines) (r : Request) :
    (s.answer r).2.Confines := by
  obtain ⟨mid, hmid, hleft⟩ := exists_leaves_of_answer s r
  exact (Feed.Confines.of_leaves h hmid).of_leaves hleft

/-- The tree that a request is answered with. -/
theorem Confines.confinesData {s : Session} (h : s.Confines) {r : Request} {n : Node}
    (hn : (s.answer r).1 = .ok n) : n.ConfinesData := by
  intro call hcall
  rw [Node.invocations_eq_leaves] at hcall
  obtain ⟨rest, hread⟩ := exists_read_of_answer hn
  rcases Recognizer.exists_makes_of_read hread with hmakes | ⟨-, ph, hph, made, hmade, rfl⟩
  · obtain ⟨ph, hph, hmade⟩ := hmakes call hcall
    exact Invocation.confinesData_of_makes (h.of_mem_phrases hph) hmade
  · -- an undefined operator that is asked for by itself
    obtain rfl := List.mem_singleton.mp hcall
    obtain ⟨xs, hxs, rfl⟩ := Phrase.undefinedInvocation_eq_ok_iff.mp hmade
    exact Invocation.confinesData_of_operands (h.of_mem_phrases hph) hxs _ _

end Session

/-- **Confinement**: in the calls of a lexer, which go on after faults, data comes right
    after `ID` and right before `EI`, and after `ID` there is data or a fault. So in what
    is parsed, and in all that a session answers, whatever it has been asked for and
    wherever it has failed before, data is the single operand of `EI`, and all other
    operands are ASCII text whose bytes are what is written for them. -/
theorem confined_data (bytes : List UInt8) :
    (∀ i t data, (Lexer.ofBytes bytes).call i = .ok t → t.lexeme = .inlineData data →
      ∃ j before fin, i = j + 1 ∧
        (Lexer.ofBytes bytes).call j = .ok before ∧ before.lexeme = .operator "ID" ∧
        (Lexer.ofBytes bytes).call (i + 1) = .ok fin ∧ fin.lexeme = .operator "EI") ∧
    (∀ i t, (Lexer.ofBytes bytes).call i = .ok t → t.lexeme = .operator "ID" →
      (∃ e, (Lexer.ofBytes bytes).call (i + 1) = .error e) ∨
        ∃ t' data, (Lexer.ofBytes bytes).call (i + 1) = .ok t' ∧
          t'.lexeme = .inlineData data) ∧
    (∀ o s, ContentStream.parse o bytes = .ok s → s.root.ConfinesData) ∧
    (∀ p n, Node.parseAs p bytes = .ok n → n.ConfinesData) ∧
    ∀ o log rs n, .ok n ∈ ((Session.start o bytes log).answers rs).1 → n.ConfinesData := by
  refine ⟨?_, ?_, ?_, ?_, ?_⟩
  · intro i t data h ht
    exact Lexer.call_of_inlineData rfl h ht
  · intro i t h ht
    exact Lexer.call_of_operator h ht
  · intro o s h
    have hanswer : ((Session.start o bytes .empty).answer (.part .content)).1 = .ok s.root := by
      rw [Session.answer_start_content, h]
      rfl
    exact (Session.confines_start o bytes .empty).confinesData hanswer
  · intro p n h
    have hanswer := (Session.answer_start_whole p bytes .empty).trans h
    exact (Session.confines_start _ bytes .empty).confinesData hanswer
  · intro o log rs n hn
    have hkeep : ∀ (s : Session) (r : Request), s.Confines → (s.answer r).2.Confines :=
      fun s r h => h.answer r
    obtain ⟨s, r, hs, hanswer⟩ :=
      Session.exists_of_mem_answers hkeep (Session.confines_start o bytes log) hn
    exact hs.confinesData hanswer

/-- An inline image with two bytes of data. -/
theorem confined_data_image :
    (∃ fin, (Lexer.ofBytes (Byte.ofChars "BI ID ab EI".toList)).call 3 = .ok fin ∧
      fin.lexeme = .operator "EI") ∧
    ∃ s, ContentStream.parse Profile.default.options (Byte.ofChars "BI ID ab EI".toList) = .ok s ∧
      s.invocations.map (·.keyword) = ["BI", "ID", "EI"] ∧ s.root.ConfinesData := by
  have hdata : ((Lexer.ofBytes (Byte.ofChars "BI ID ab EI".toList)).call 2).toOption =
      some ⟨.inlineData (Byte.ofChars ['a', 'b']), ⟨6, 8⟩⟩ := by
    decide +kernel
  obtain ⟨hbetween, -, htree, -, -⟩ := confined_data (Byte.ofChars "BI ID ab EI".toList)
  constructor
  · match h : (Lexer.ofBytes (Byte.ofChars "BI ID ab EI".toList)).call 2 with
    | .ok t =>
      rw [h] at hdata
      have ht : t.lexeme = .inlineData (Byte.ofChars ['a', 'b']) :=
        congrArg Token.lexeme (Option.some.inj hdata)
      obtain ⟨j, before, fin, -, -, -, hfin, hend⟩ := hbetween 2 t _ h ht
      exact ⟨fin, hfin, hend⟩
    | .error e =>
      rw [h] at hdata
      exact absurd hdata (by simp [Except.toOption])
  · have hkeywords : ((ContentStream.parse Profile.default.options
        (Byte.ofChars "BI ID ab EI".toList)).toOption.any fun s =>
          s.invocations.map (·.keyword) == ["BI", "ID", "EI"]) = true := by
      decide +kernel
    match h : ContentStream.parse Profile.default.options
        (Byte.ofChars "BI ID ab EI".toList) with
    | .ok s =>
      rw [h] at hkeywords
      exact ⟨s, rfl, beq_iff_eq.mp hkeywords, htree _ s h⟩
    | .error e =>
      rw [h] at hkeywords
      exact absurd hkeywords Bool.false_ne_true

end PageContent
