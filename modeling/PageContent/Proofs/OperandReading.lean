import PageContent.Proofs.Grammar

/-! # Reading operands, against the grammar

    The operand reader accepts exactly the operand lists of the grammar.

    * **Completeness**: the tokens of an operand bring a reader to the state in
      which the operand has been delivered.
    * **Soundness**: `Completes` says what the open containers of a reader still
      demand of the tokens. Every step of a complete run meets its demand.
    * **Prefixes**: a run that is complete refuses no token on its way.
-/

namespace PageContent

open Grammar

/-! ## Scalars -/

/-- The lexemes that are operands by themselves, and which operands they are. -/
inductive Lexeme.Denotes : Lexeme → Operand → Prop where
  | integer (i : Int64) : Denotes (.integer i) (.integer i)
  | real (x : Binary64) : Denotes (.real x) (.real x)
  | boolean (b : Bool) : Denotes (.boolean b) (.boolean b)
  | null : Denotes .null .null
  | name (text : String) : Denotes (.name text) (.name text)
  | literal (bytes : List UInt8) : Denotes (.literal bytes) (.string .literal bytes)
  | hex (bytes : List UInt8) : Denotes (.hex bytes) (.string .hex bytes)
  | inlineData (bytes : List UInt8) : Denotes (.inlineData bytes) (.inlineData bytes)

theorem Lexeme.denotes_of_scalar? {lexeme : Lexeme} {x : Operand}
    (h : lexeme.scalar? = some x) : lexeme.Denotes x := by
  cases lexeme with
  | integer i => exact Option.some.inj h ▸ Denotes.integer i
  | real r => exact Option.some.inj h ▸ Denotes.real r
  | boolean b => exact Option.some.inj h ▸ Denotes.boolean b
  | null => exact Option.some.inj h ▸ Denotes.null
  | name text => exact Option.some.inj h ▸ Denotes.name text
  | literal bytes => exact Option.some.inj h ▸ Denotes.literal bytes
  | hex bytes => exact Option.some.inj h ▸ Denotes.hex bytes
  | inlineData bytes => exact Option.some.inj h ▸ Denotes.inlineData bytes
  | _ => exact absurd h.symm (Option.some_ne_none x)

namespace OperandReader

/-! ## Steps -/

/-- The reader has no dictionary in front, so that an operand may come. -/
def Awaits (r : OperandReader) : Prop :=
  r.dict = none

theorem depth_of_awaits {r : OperandReader} (h : r.Awaits) : r.depth = r.holes.length := by
  unfold Awaits at h
  simp [depth, h]

/-- A container may be opened as long as the limit is not reached. -/
theorem enter_eq_ok_iff {limit : Nat} {r : OperandReader} {t : Token}
    {opened r' : OperandReader} :
    r.enter limit t opened = .ok r' ↔ r.depth + 1 ≤ min limit deepestNesting ∧ r' = opened := by
  by_cases hle : r.depth + 1 ≤ min limit deepestNesting
  · simp [enter, NestingGuard.enter, NestingGuard.new, hle, eq_comm]
  · simp [enter, NestingGuard.enter, NestingGuard.new, hle]

theorem step_scalar {limit : Nat} {r : OperandReader} {t : Token} {x : Operand}
    (hr : r.Awaits) (hx : t.lexeme.scalar? = some x) :
    r.step limit t = .ok (r.deliver x t.span) := by
  obtain ⟨lexeme, span⟩ := t
  have hdenotes := Lexeme.denotes_of_scalar? hx
  unfold Awaits at hr
  unfold step
  rw [hr]
  cases hdenotes <;> rfl

/-- A token that neither is an operand nor has to do with an array or a dictionary
    is refused. -/
theorem step_of_refused {limit : Nat} {r : OperandReader} {t : Token} (hr : r.Awaits)
    (ht : t.lexeme = .dictClose ∨ t.lexeme = .eof ∨ ∃ keyword, t.lexeme = .operator keyword) :
    r.step limit t = .error (r.refuse t) := by
  unfold Awaits at hr
  unfold step
  rcases ht with ht | ht | ⟨keyword, ht⟩
  all_goals
    rw [hr, ht]
    rfl

theorem step_arrayOpen {limit : Nat} {r : OperandReader} {t : Token}
    (hr : r.Awaits) (ht : t.lexeme = .arrayOpen) :
    r.step limit t = r.enter limit t ⟨r.done, .item t.span [] :: r.holes, none⟩ := by
  unfold Awaits at hr
  simp [step, hr, ht]

theorem step_dictOpen {limit : Nat} {r : OperandReader} {t : Token}
    (hr : r.Awaits) (ht : t.lexeme = .dictOpen) :
    r.step limit t = r.enter limit t ⟨r.done, r.holes, some ⟨t.span, []⟩⟩ := by
  unfold Awaits at hr
  simp [step, hr, ht]

theorem step_arrayClose {limit : Nat} {done : List (Operand × Span)} {opened : Span}
    {before : List Operand} {outer : List Hole} {t : Token} (ht : t.lexeme = .arrayClose) :
    step limit ⟨done, .item opened before :: outer, none⟩ t =
      .ok (deliver ⟨done, outer, none⟩ (.array before.reverse) (opened.join t.span)) := by
  simp [step, ht]

theorem step_key {limit : Nat} {done : List (Operand × Span)} {holes : List Hole}
    {d : OpenDict} {t : Token} {key : String} (ht : t.lexeme = .name key) :
    step limit ⟨done, holes, some d⟩ t =
      .ok ⟨done, .value d.opened d.entries key :: holes, none⟩ := by
  simp [step, ht]

theorem step_dictClose {limit : Nat} {done : List (Operand × Span)} {holes : List Hole}
    {d : OpenDict} {t : Token} (ht : t.lexeme = .dictClose) :
    step limit ⟨done, holes, some d⟩ t =
      .ok (deliver ⟨done, holes, none⟩ (.dictionary d.entries.reverse)
        (d.opened.join t.span)) := by
  simp [step, ht, deliver]

theorem run_cons_ok {limit : Nat} {r r' : OperandReader} {t : Token} {ts : List Token}
    (h : r.step limit t = .ok r') : r.run limit (t :: ts) = r'.run limit ts := by
  simp [run, h]

/-! ## Completeness -/

/-- The reader waits for any number of operands: it is idle or in an array. -/
def Collects (r : OperandReader) : Prop :=
  r.Awaits ∧ ∀ opened before key, r.holes.head? ≠ some (.value opened before key)

/-- A reader that collects goes on collecting, at the same depth. -/
theorem Collects.deliver {r : OperandReader} (h : r.Collects) (x : Operand) (s : Span) :
    (r.deliver x s).Collects ∧ (r.deliver x s).depth = r.depth := by
  obtain ⟨done, holes, dict⟩ := r
  obtain ⟨hdict, hholes⟩ := h
  unfold Awaits at hdict
  dsimp only at hdict hholes
  subst hdict
  match holes with
  | [] => exact ⟨⟨rfl, by simp [OperandReader.deliver]⟩, rfl⟩
  | .item opened before :: outer =>
    exact ⟨⟨rfl, by simp [OperandReader.deliver]⟩, by simp [OperandReader.deliver, depth]⟩
  | .value opened before key :: outer => exact absurd rfl (hholes opened before key)

/-- Deliver several operands. -/
def deliverAll (r : OperandReader) (xs : List (Operand × Span)) : OperandReader :=
  xs.foldl (fun r x => r.deliver x.1 x.2) r

theorem deliverAll_idle (done xs : List (Operand × Span)) :
    deliverAll ⟨done, [], none⟩ xs = ⟨xs.reverse ++ done, [], none⟩ := by
  induction xs generalizing done with
  | nil => rfl
  | cons x xs ih =>
    show deliverAll ⟨x :: done, [], none⟩ xs = _
    rw [ih]
    simp

theorem deliverAll_item (done xs : List (Operand × Span)) (opened : Span)
    (before : List Operand) (outer : List Hole) :
    deliverAll ⟨done, .item opened before :: outer, none⟩ xs =
      ⟨done, .item opened ((xs.map (·.1)).reverse ++ before) :: outer, none⟩ := by
  induction xs generalizing before with
  | nil => rfl
  | cons x xs ih =>
    show deliverAll ⟨done, .item opened (x.1 :: before) :: outer, none⟩ xs = _
    rw [ih]
    simp

mutual

/-- The tokens of an operand deliver it. -/
theorem run_operand {limit d : Nat} {ts : List Token} {x : Operand} {s : Span}
    (h : IsOperand d ts x s) {r : OperandReader} (hr : r.Awaits)
    (hd : r.depth + d ≤ min limit deepestNesting) (rest : List Token) :
    r.run limit (ts ++ rest) = (r.deliver x s).run limit rest := by
  have hdepth := depth_of_awaits hr
  match h with
  | .scalar hx => exact run_cons_ok (step_scalar hr hx)
  | @IsOperand.array d opened closed ts xs ho hxs hc =>
    -- the array is open, its members are read, and it is closed
    have henter : r.step limit opened = .ok ⟨r.done, .item opened.span [] :: r.holes, none⟩ := by
      rw [step_arrayOpen hr ho, enter_eq_ok_iff]
      exact ⟨by omega, rfl⟩
    have hopen : Collects ⟨r.done, .item opened.span [] :: r.holes, none⟩ := ⟨rfl, by simp⟩
    have hmembers := run_operands hxs hopen
      (show _ ≤ min limit deepestNesting by simp [depth]; omega) (closed :: rest)
    have hself : r = ⟨r.done, r.holes, none⟩ := by rw [← hr]
    calc r.run limit (opened :: ts ++ [closed] ++ rest)
        = r.run limit (opened :: (ts ++ closed :: rest)) := by simp
      _ = _ := run_cons_ok henter
      _ = _ := hmembers
      _ = _ := by rw [deliverAll_item]
      _ = _ := run_cons_ok (step_arrayClose hc)
      _ = _ := by rw [List.append_nil, List.reverse_reverse, ← hself]
  | @IsOperand.dictionary d opened closed ts es ho hes hc =>
    have henter : r.step limit opened = .ok ⟨r.done, r.holes, some ⟨opened.span, []⟩⟩ := by
      rw [step_dictOpen hr ho, enter_eq_ok_iff]
      exact ⟨by omega, rfl⟩
    have hentries : run limit ⟨r.done, r.holes, some ⟨opened.span, []⟩⟩ (ts ++ closed :: rest) =
        run limit ⟨r.done, r.holes, some ⟨opened.span, es.reverse ++ []⟩⟩ (closed :: rest) :=
      run_entries hes (by omega) (closed :: rest)
    have hself : r = ⟨r.done, r.holes, none⟩ := by rw [← hr]
    calc r.run limit (opened :: ts ++ [closed] ++ rest)
        = r.run limit (opened :: (ts ++ closed :: rest)) := by simp
      _ = _ := run_cons_ok henter
      _ = _ := hentries
      _ = _ := run_cons_ok (step_dictClose hc)
      _ = _ := by rw [List.append_nil, List.reverse_reverse, ← hself]

/-- The tokens of several operands deliver them, where they are collected. -/
theorem run_operands {limit d : Nat} {ts : List Token} {xs : List (Operand × Span)}
    (h : AreOperands d ts xs) {r : OperandReader} (hr : r.Collects)
    (hd : r.depth + d ≤ min limit deepestNesting) (rest : List Token) :
    r.run limit (ts ++ rest) = (r.deliverAll xs).run limit rest := by
  match h with
  | .nil => rfl
  | .cons hx hxs =>
    obtain ⟨hr', hdepth⟩ := hr.deliver _ _
    rw [List.append_assoc, run_operand hx hr.1 hd,
      run_operands hxs hr' (by rw [hdepth]; exact hd)]
    rfl

/-- The tokens of some entries add them to a dictionary. -/
theorem run_entries {limit d : Nat} {ts : List Token} {es : List (String × Operand)}
    (h : AreEntries d ts es) {done : List (Operand × Span)} {holes : List Hole}
    {opened : Span} {before : List (String × Operand)}
    (hd : holes.length + 1 + d ≤ min limit deepestNesting) (rest : List Token) :
    run limit ⟨done, holes, some ⟨opened, before⟩⟩ (ts ++ rest) =
      run limit ⟨done, holes, some ⟨opened, es.reverse ++ before⟩⟩ rest := by
  match h with
  | .nil => rfl
  | @AreEntries.cons _ t key ts us x s es hk hx hes =>
    have hopen : Awaits ⟨done, .value opened before key :: holes, none⟩ := rfl
    have hvalue := run_operand hx hopen
      (show _ ≤ min limit deepestNesting by simp [depth]; omega) (us ++ rest)
    calc run limit ⟨done, holes, some ⟨opened, before⟩⟩ (t :: ts ++ us ++ rest)
        = run limit ⟨done, holes, some ⟨opened, before⟩⟩ (t :: (ts ++ (us ++ rest))) := by simp
      _ = _ := run_cons_ok (step_key hk)
      _ = _ := hvalue
      _ = _ := run_entries hes hd rest
      _ = _ := by simp

end

/-! ## Soundness -/

/-- What a reader still demands: `Completes m r ts xs` says that the tokens `ts`
    fill the holes of `r` and close its containers, and that `xs` are all
    operands then. -/
inductive Completes (m : Nat) :
    OperandReader → List Token → List (Operand × Span) → Prop where
  | idle {done xs : List (Operand × Span)} {ts : List Token} (hxs : AreOperands m ts xs) :
      Completes m ⟨done, [], none⟩ ts (done.reverse ++ xs)
  | item {done xs ys : List (Operand × Span)} {opened : Span} {before : List Operand}
      {outer : List Hole} {ts us : List Token} {closed : Token}
      (hxs : AreOperands (m - (outer.length + 1)) ts xs) (hc : closed.lexeme = .arrayClose)
      (hus : Completes m
        (deliver ⟨done, outer, none⟩ (.array (before.reverse ++ xs.map (·.1)))
          (opened.join closed.span)) us ys) :
      Completes m ⟨done, .item opened before :: outer, none⟩ (ts ++ closed :: us) ys
  | value {done ys : List (Operand × Span)} {opened : Span}
      {before : List (String × Operand)} {key : String} {outer : List Hole}
      {ts us : List Token} {x : Operand} {s : Span}
      (hx : IsOperand (m - (outer.length + 1)) ts x s)
      (hus : Completes m ⟨done, outer, some ⟨opened, (key, x) :: before⟩⟩ us ys) :
      Completes m ⟨done, .value opened before key :: outer, none⟩ (ts ++ us) ys
  | dict {done ys : List (Operand × Span)} {holes : List Hole} {d : OpenDict}
      {ts us : List Token} {es : List (String × Operand)} {closed : Token}
      (hes : AreEntries (m - (holes.length + 1)) ts es) (hc : closed.lexeme = .dictClose)
      (hus : Completes m
        (deliver ⟨done, holes, none⟩ (.dictionary (d.entries.reverse ++ es))
          (d.opened.join closed.span)) us ys) :
      Completes m ⟨done, holes, some d⟩ (ts ++ closed :: us) ys

/-- What a reader demands after an operand, it demands before it with the tokens
    of the operand in front. -/
theorem Completes.operand {m : Nat} {r : OperandReader} {ts us : List Token} {x : Operand}
    {s : Span} {ys : List (Operand × Span)} (hr : r.Awaits)
    (hx : IsOperand (m - r.depth) ts x s) (h : Completes m (r.deliver x s) us ys) :
    Completes m r (ts ++ us) ys := by
  rw [depth_of_awaits hr] at hx
  obtain ⟨done, holes, dict⟩ := r
  unfold Awaits at hr
  dsimp only at hr hx
  subst hr
  -- the operand goes where the innermost hole is: to the operands, into an array, or
  -- to the key of a dictionary
  match holes with
  | [] =>
    cases h with
    | @idle done' xs us hxs =>
      have : Completes m ⟨done, [], none⟩ _ (done.reverse ++ _) :=
        Completes.idle (AreOperands.cons hx hxs)
      simpa using this
  | .item opened before :: outer =>
    cases h with
    | @item _ xs _ _ _ _ vs us closed hxs hc hus =>
      rw [← List.append_assoc]
      refine Completes.item (AreOperands.cons hx hxs) hc ?_
      simpa using hus
  | .value opened before key :: outer => exact Completes.value hx h

section

variable {m : Nat} {done : List (Operand × Span)} {holes outer : List Hole} {d : OpenDict}
  {t : Token} {ts : List Token} {ys : List (Operand × Span)}

/-- What is one level below an open container is as deep as the container may be. -/
theorem depth_inside (hroom : holes.length + 1 ≤ m) :
    m - (holes.length + 1) + 1 = m - depth ⟨done, holes, none⟩ := by
  have hr : Awaits ⟨done, holes, none⟩ := rfl
  rw [depth_of_awaits hr]
  dsimp only
  omega

/-- The array as a whole is an operand of the reader before it was opened. -/
theorem Completes.arrayOpen (ht : t.lexeme = .arrayOpen) (hroom : holes.length + 1 ≤ m)
    (h : Completes m ⟨done, .item t.span [] :: holes, none⟩ ts ys) :
    Completes m ⟨done, holes, none⟩ (t :: ts) ys := by
  have hr : Awaits ⟨done, holes, none⟩ := rfl
  cases h with
  | item hxs hc hus =>
    have hx := IsOperand.array ht hxs hc
    rw [depth_inside hroom] at hx
    have harray := Completes.operand hr hx hus
    simpa using harray

/-- So is the dictionary as a whole. -/
theorem Completes.dictOpen (ht : t.lexeme = .dictOpen) (hroom : holes.length + 1 ≤ m)
    (h : Completes m ⟨done, holes, some ⟨t.span, []⟩⟩ ts ys) :
    Completes m ⟨done, holes, none⟩ (t :: ts) ys := by
  have hr : Awaits ⟨done, holes, none⟩ := rfl
  cases h with
  | dict hes hc hus =>
    have hx := IsOperand.dictionary ht hes hc
    rw [depth_inside hroom] at hx
    have hdict := Completes.operand hr hx hus
    simpa using hdict

/-- An array that is closed has no more members. -/
theorem Completes.arrayClose {opened : Span} {before : List Operand}
    (ht : t.lexeme = .arrayClose)
    (h : Completes m (deliver ⟨done, outer, none⟩ (.array before.reverse)
      (opened.join t.span)) ts ys) :
    Completes m ⟨done, .item opened before :: outer, none⟩ (t :: ts) ys := by
  have hus : Completes m (deliver ⟨done, outer, none⟩
      (.array (before.reverse ++ List.map (·.1) ([] : List (Operand × Span))))
      (opened.join t.span)) ts ys := by
    simpa using h
  exact Completes.item AreOperands.nil ht hus

/-- A dictionary that is closed has no more entries. -/
theorem Completes.dictClose (ht : t.lexeme = .dictClose)
    (h : Completes m (deliver ⟨done, holes, none⟩ (.dictionary d.entries.reverse)
      (d.opened.join t.span)) ts ys) :
    Completes m ⟨done, holes, some d⟩ (t :: ts) ys := by
  have hus : Completes m (deliver ⟨done, holes, none⟩ (.dictionary (d.entries.reverse ++ []))
      (d.opened.join t.span)) ts ys := by
    simpa using h
  exact Completes.dict AreEntries.nil ht hus

/-- A key waits for its value, and the dictionary for its end after that. -/
theorem Completes.key {key : String} (ht : t.lexeme = .name key)
    (h : Completes m ⟨done, .value d.opened d.entries key :: holes, none⟩ ts ys) :
    Completes m ⟨done, holes, some d⟩ (t :: ts) ys := by
  cases h with
  | value hx hus =>
    cases hus with
    | dict hes hc hus =>
      have hdict : Completes m ⟨done, holes, some d⟩ _ ys :=
        Completes.dict (AreEntries.cons ht hx hes) hc (by simpa using hus)
      simpa using hdict

end

/-- In a dictionary there are its end and its keys. -/
theorem Completes.step_dict {m limit : Nat} {done : List (Operand × Span)} {holes : List Hole}
    {d : OpenDict} {r' : OperandReader} {t : Token} {ts : List Token}
    {ys : List (Operand × Span)}
    (hstep : OperandReader.step limit ⟨done, holes, some d⟩ t = .ok r')
    (h : Completes m r' ts ys) : Completes m ⟨done, holes, some d⟩ (t :: ts) ys := by
  cases ht : t.lexeme with
  | dictClose =>
    rw [step_dictClose ht, Except.ok.injEq] at hstep
    subst hstep
    exact Completes.dictClose ht h
  | name key =>
    rw [step_key ht, Except.ok.injEq] at hstep
    subst hstep
    exact Completes.key ht h
  | _ => simp [OperandReader.step, ht] at hstep

/-- Elsewhere there are operands, beginnings of containers, and ends of arrays. -/
theorem Completes.step_awaits {m limit : Nat} (hm : m = min limit deepestNesting)
    {done : List (Operand × Span)} {holes : List Hole} {r' : OperandReader} {t : Token}
    {ts : List Token} {ys : List (Operand × Span)}
    (hstep : OperandReader.step limit ⟨done, holes, none⟩ t = .ok r')
    (h : Completes m r' ts ys) : Completes m ⟨done, holes, none⟩ (t :: ts) ys := by
  have hr : Awaits ⟨done, holes, none⟩ := rfl
  cases ht : t.lexeme with
  | arrayOpen =>
    rw [step_arrayOpen hr ht, enter_eq_ok_iff, depth_of_awaits hr, ← hm] at hstep
    obtain ⟨hroom, rfl⟩ := hstep
    exact Completes.arrayOpen ht hroom h
  | dictOpen =>
    rw [step_dictOpen hr ht, enter_eq_ok_iff, depth_of_awaits hr, ← hm] at hstep
    obtain ⟨hroom, rfl⟩ := hstep
    exact Completes.dictOpen ht hroom h
  | arrayClose =>
    match holes with
    | [] => simp [OperandReader.step, ht] at hstep
    | .value _ _ _ :: _ => simp [OperandReader.step, ht] at hstep
    | .item opened before :: outer =>
      rw [step_arrayClose ht, Except.ok.injEq] at hstep
      subst hstep
      exact Completes.arrayClose ht h
  | dictClose =>
    rw [step_of_refused hr (.inl ht)] at hstep
    exact absurd hstep (by simp)
  | operator k =>
    rw [step_of_refused hr (.inr (.inr ⟨k, ht⟩))] at hstep
    exact absurd hstep (by simp)
  | eof =>
    rw [step_of_refused hr (.inr (.inl ht))] at hstep
    exact absurd hstep (by simp)
  | _ =>
    -- the other lexemes are operands by themselves
    have hx := congrArg Lexeme.scalar? ht
    rw [step_scalar hr hx, Except.ok.injEq] at hstep
    subst hstep
    exact Completes.operand hr (IsOperand.scalar hx) h

/-- A step towards a state whose demand is met meets the demand. -/
theorem Completes.step {m : Nat} {r r' : OperandReader} {t : Token} {ts : List Token}
    {ys : List (Operand × Span)} (limit : Nat) (hm : m = min limit deepestNesting)
    (hstep : r.step limit t = .ok r') (h : Completes m r' ts ys) :
    Completes m r (t :: ts) ys := by
  obtain ⟨done, holes, dict⟩ := r
  cases dict with
  | none => exact Completes.step_awaits hm hstep h
  | some d => exact Completes.step_dict hstep h

/-- A complete run meets the demand of its reader. -/
theorem completes_of_run {limit : Nat} {r : OperandReader} {ts : List Token}
    {ys : List (Operand × Span)} (h : r.run limit ts = .complete ys) :
    Completes (min limit deepestNesting) r ts ys := by
  induction ts generalizing r with
  | nil =>
    simp only [run] at h
    split at h
    · next hidle =>
      simp only [OperandRun.complete.injEq] at h
      obtain ⟨done, holes, dict⟩ := r
      simp only [isIdle, Bool.and_eq_true, List.isEmpty_iff, Option.isNone_iff_eq_none] at hidle
      obtain ⟨rfl, rfl⟩ := hidle
      rw [← h]
      have hidle : Completes (min limit deepestNesting) ⟨done, [], none⟩ [] (done.reverse ++ []) :=
        Completes.idle AreOperands.nil
      simpa using hidle
    · exact absurd h (by simp)
  | cons t ts ih =>
    simp only [run] at h
    split at h
    · next r' hstep => exact Completes.step limit rfl hstep (ih h)
    · exact absurd h (by simp)
    · exact absurd h (by simp)

/-- **Operand lists**: the reader is complete on exactly the operand lists of
    the grammar, and finds exactly their operands. -/
theorem run_start_eq_complete_iff {limit : Nat} {ts : List Token} {xs : List (Operand × Span)} :
    start.run limit ts = .complete xs ↔ AreOperands (min limit deepestNesting) ts xs := by
  constructor
  · intro h
    have hstart := completes_of_run h
    cases hstart with
    | idle hxs => exact hxs
  · intro h
    have hstart : start.Collects := ⟨rfl, by simp [start]⟩
    -- all operands are delivered to an idle reader, and no token is left
    have hrun : start.run limit (ts ++ []) = (start.deliverAll xs).run limit [] :=
      run_operands h hstart (by simp [start, depth]) []
    rw [List.append_nil] at hrun
    rw [hrun, start, deliverAll_idle]
    simp [run, isIdle]

/-! ## Prefixes -/

/-- A token list that is refused stays refused whatever comes after it. -/
theorem run_append_of_refused {limit : Nat} {r : OperandReader} {ts us left : List Token}
    {e : ParseError} (h : r.run limit ts = .refused e left) :
    r.run limit (ts ++ us) = .refused e (left ++ us) := by
  induction ts generalizing r with
  | nil =>
    simp only [run] at h
    split at h <;> simp at h
  | cons t ts ih =>
    simp only [run] at h
    split at h
    · next r' hstep =>
      rw [List.cons_append, run_cons_ok hstep]
      exact ih h
    all_goals
      next hstep =>
      simp only [OperandRun.refused.injEq] at h
      obtain ⟨rfl, rfl⟩ := h
      simp [run, hstep]

end OperandReader

end PageContent
