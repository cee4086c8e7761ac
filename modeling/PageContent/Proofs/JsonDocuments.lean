import PageContent.Proofs.JsonLiterals

/-! # Documents in indented notation

    What is written on many lines is read as the same document.

    * **Marks of a document**: those that its notation consists of, blanks apart.
    * **Assembly**: the marks of a document, put where a value must come, fill that
      place with the document, whatever is open around it.
    * **Scanning**: indented notation has the marks of its document, in front of
      anything that does not go on with a number.
-/

namespace PageContent

namespace Json

/-! ## The marks of a document -/

mutual

/-- The marks that a document is written with. -/
def marks : Json → List Mark
  | .null => [.null]
  | .bool b => [.bool b]
  | .number literal => [.number literal]
  | .string literal => [.string literal]
  | .array items => .arrayOpen :: (itemMarks items ++ [.arrayClose])
  | .object members => .objectOpen :: (memberMarks members ++ [.objectClose])

def itemMarks : List Json → List Mark
  | [] => []
  | [x] => x.marks
  | x :: rest => x.marks ++ .comma :: itemMarks rest

def memberMarks : List (List Char × Json) → List Mark
  | [] => []
  | [(key, x)] => .string key :: .colon :: x.marks
  | (key, x) :: rest => .string key :: .colon :: (x.marks ++ .comma :: memberMarks rest)

end

theorem itemMarks_cons_cons (x y : Json) (rest : List Json) :
    itemMarks (x :: y :: rest) = x.marks ++ .comma :: itemMarks (y :: rest) := by
  rw [itemMarks]
  simp

theorem memberMarks_cons_cons (key : List Char) (x : Json) (m : List Char × Json)
    (rest : List (List Char × Json)) :
    memberMarks ((key, x) :: m :: rest) =
      .string key :: .colon :: (x.marks ++ .comma :: memberMarks (m :: rest)) := by
  rw [memberMarks]
  simp

/-- No document begins with the end of an array. -/
theorem exists_marks_cons (x : Json) : ∃ m ms, x.marks = m :: ms ∧ m ≠ .arrayClose := by
  cases x with
  | null => exact ⟨_, _, by rw [marks], by simp⟩
  | bool b => exact ⟨_, _, by rw [marks], by simp⟩
  | number literal => exact ⟨_, _, by rw [marks], by simp⟩
  | string literal => exact ⟨_, _, by rw [marks], by simp⟩
  | array items => exact ⟨_, _, by rw [marks], by simp⟩
  | object members => exact ⟨_, _, by rw [marks], by simp⟩

/-! ## Assembly -/

namespace Draft

theorem run?_cons {d d' : Draft} {m : Mark} (h : d.step? m = some d') (ms : List Mark) :
    d.run? (m :: ms) = d'.run? ms := by
  rw [run?, h]

/-- After the bracket of an array, an item comes as it does in any other place. -/
theorem run?_arrayStart (x : Json) (holes : List Hole) (ms : List Mark) :
    (arrayStart holes).run? (x.marks ++ ms) =
      (value (.item [] :: holes)).run? (x.marks ++ ms) := by
  obtain ⟨m, ms', hmarks, hm⟩ := exists_marks_cons x
  have hstep : (arrayStart holes).step? m = (value (.item [] :: holes)).step? m := by
    cases m with
    | arrayClose => exact absurd rfl hm
    | _ => rfl
  rw [hmarks, List.cons_append, run?, run?, hstep]

mutual

/-- **Documents** fill the place in which their marks are met. -/
theorem run?_marks : ∀ (x : Json) (holes : List Hole) (ms : List Mark),
    (value holes).run? (x.marks ++ ms) = (fill x holes).run? ms
  | .null, holes, ms => run?_cons rfl ms
  | .bool b, holes, ms => run?_cons rfl ms
  | .number literal, holes, ms => run?_cons rfl ms
  | .string literal, holes, ms => run?_cons rfl ms
  | .array [], holes, ms => (run?_cons rfl _).trans (run?_cons rfl ms)
  | .array (x :: rest), holes, ms => by
    have hitems := run?_itemMarks x rest [] holes ms
    have hopen : (value holes).step? .arrayOpen = some (arrayStart holes) := rfl
    rw [marks, List.cons_append, List.append_assoc, run?_cons hopen]
    cases rest with
    | nil =>
      rw [itemMarks] at hitems ⊢
      rwa [run?_arrayStart]
    | cons y rest =>
      rw [itemMarks_cons_cons, List.append_assoc] at hitems ⊢
      rwa [run?_arrayStart]
  | .object [], holes, ms => (run?_cons rfl _).trans (run?_cons rfl ms)
  | .object ((key, x) :: rest), holes, ms => by
    have hmembers := run?_memberMarks key x rest [] holes ms
    have hopen : (value holes).step? .objectOpen = some (objectStart holes) := rfl
    rw [marks, List.cons_append, List.append_assoc, run?_cons hopen]
    cases rest with
    | nil =>
      rw [memberMarks] at hmembers ⊢
      exact hmembers
    | cons m rest =>
      rw [memberMarks_cons_cons] at hmembers ⊢
      exact hmembers
termination_by x => sizeOf x

/-- The items that are left of an array, up to its end. -/
theorem run?_itemMarks : ∀ (x : Json) (rest before : List Json) (holes : List Hole)
    (ms : List Mark),
    (value (.item before :: holes)).run? (itemMarks (x :: rest) ++ .arrayClose :: ms) =
      (fill (.array (before.reverse ++ x :: rest)) holes).run? ms
  | x, [], before, holes, ms => by
    rw [itemMarks, run?_marks x]
    show (fill (.array (x :: before).reverse) holes).run? ms = _
    rw [List.reverse_cons]
  | x, y :: rest, before, holes, ms => by
    rw [itemMarks_cons_cons, List.append_assoc, run?_marks x]
    show (value (.item (x :: before) :: holes)).run?
      (itemMarks (y :: rest) ++ .arrayClose :: ms) = _
    rw [run?_itemMarks y rest, List.reverse_cons, List.append_assoc, List.singleton_append]
termination_by x rest => sizeOf x + sizeOf rest + 1

/-- The members that are left of an object, up to its end. -/
theorem run?_memberMarks : ∀ (key : List Char) (x : Json)
    (rest before : List (List Char × Json)) (holes : List Hole) (ms : List Mark),
    (nextKey before holes).run? (memberMarks ((key, x) :: rest) ++ .objectClose :: ms) =
      (fill (.object (before.reverse ++ (key, x) :: rest)) holes).run? ms
  | key, x, [], before, holes, ms => by
    rw [memberMarks]
    show (value (.member before key :: holes)).run? (x.marks ++ .objectClose :: ms) = _
    rw [run?_marks x]
    show (fill (.object ((key, x) :: before).reverse) holes).run? ms = _
    rw [List.reverse_cons]
  | key, x, (key', y) :: rest, before, holes, ms => by
    rw [memberMarks_cons_cons]
    show (value (.member before key :: holes)).run? ((x.marks ++ _) ++ _) = _
    rw [List.append_assoc, run?_marks x]
    show (nextKey ((key, x) :: before) holes).run?
      (memberMarks ((key', y) :: rest) ++ .objectClose :: ms) = _
    rw [run?_memberMarks key' y rest, List.reverse_cons, List.append_assoc,
      List.singleton_append]
termination_by _ x rest => sizeOf x + sizeOf rest + 1

end

end Draft

/-! ## Scanning -/

/-- Put marks in front of those that are still to be found. -/
def follow (ms : List Mark) (found : Option (List Mark)) : Option (List Mark) :=
  found.map (ms ++ ·)

theorem follow_append (ms ms' : List Mark) (found : Option (List Mark)) :
    follow (ms ++ ms') found = follow ms (follow ms' found) := by
  cases found <;> simp [follow]

theorem follow_cons (m : Mark) (ms : List Mark) (found : Option (List Mark)) :
    follow (m :: ms) found = follow [m] (follow ms found) :=
  follow_append [m] ms found

theorem marks?_blank {c : Char} (h : isBlank c = true) (rest : List Char) :
    marks? (c :: rest) = marks? rest := by
  rw [marks?, if_pos h]

theorem marks?_mark {c : Char} {rest : List Char} {m : Mark} {taken : Nat}
    (hblank : isBlank c = false) (h : mark? c rest = some (m, taken)) :
    marks? (c :: rest) = follow [m] (marks? (rest.drop taken)) := by
  rw [marks?, if_neg (by simp [hblank])]
  simp only [h]
  rfl

/-- Brackets, commas and colons are marks of their own. -/
theorem marks?_punctuation {c : Char} {m : Mark} (h : punctuation? c = some m)
    (rest : List Char) : marks? (c :: rest) = follow [m] (marks? rest) := by
  have hblank : isBlank c = false := by
    cases hc : isBlank c with
    | false => rfl
    | true =>
      simp only [isBlank, Bool.or_eq_true, beq_iff_eq] at hc
      rcases hc with ((rfl | rfl) | rfl) | rfl <;> simp [punctuation?] at h
  have hmark : mark? c rest = some (m, 0) := by
    simp only [mark?, h]
  rw [marks?_mark hblank hmark, List.drop_zero]

theorem marks?_newLine (level : Nat) (rest : List Char) :
    marks? (newLine level ++ rest) = marks? rest := by
  have hspaces : ∀ n, marks? (List.replicate n ' ' ++ rest) = marks? rest := by
    intro n
    induction n with
    | zero => rfl
    | succ n ih => exact (marks?_blank rfl _).trans ih
  exact (marks?_blank rfl _).trans (hspaces _)

theorem marks?_quoted (s : String) (rest : List Char) :
    marks? (quoted (quote s) ++ rest) = follow [.string (quote s)] (marks? rest) := by
  have hlength := stringLength?_quote s rest
  have hmark : mark? '"' (quote s ++ '"' :: rest) =
      some (.string (quote s), (quote s).length + 1) := by
    simp [mark?, punctuation?, hlength]
  have hquoted : quoted (quote s) ++ rest = '"' :: (quote s ++ '"' :: rest) := by
    simp [quoted]
  have hdrop : (quote s ++ '"' :: rest).drop ((quote s).length + 1) = rest := by
    rw [← List.drop_drop, List.drop_left]
    rfl
  rw [hquoted, marks?_mark rfl hmark, hdrop]

theorem marks?_toDigits (n : Nat) {rest : List Char} (h : EndsNumber rest) :
    marks? (Nat.toDigits 10 n ++ rest) = follow [.number (Nat.toDigits 10 n)] (marks? rest) := by
  obtain ⟨c, cs, hcs⟩ := List.exists_cons_of_ne_nil (Nat.toDigits_ne_nil (n := n) (b := 10))
  have hdigit : c.isDigit = true := isDigit_of_mem_toDigits (n := n) (by simp [hcs])
  have hlength := numberLength?_toDigits n h
  rw [hcs, List.cons_append] at hlength ⊢
  have hne : ∀ d, d.isDigit = false → c ≠ d := by
    rintro d hd rfl
    exact absurd hdigit (by simp [hd])
  have hblank : isBlank c = false := by
    simp only [isBlank, Bool.or_eq_false_iff, beq_eq_false_iff_ne]
    exact ⟨⟨⟨hne _ (by decide), hne _ (by decide)⟩, hne _ (by decide)⟩, hne _ (by decide)⟩
  have hpunctuation : punctuation? c = none := by
    unfold punctuation?
    rw [if_neg (hne _ (by decide)), if_neg (hne _ (by decide)), if_neg (hne _ (by decide)),
      if_neg (hne _ (by decide)), if_neg (hne _ (by decide)), if_neg (hne _ (by decide))]
  have hmark : mark? c (cs ++ rest) = some (.number (c :: cs), cs.length) := by
    have htake : (c :: (cs ++ rest)).take (c :: cs).length = c :: cs := by
      rw [← List.cons_append, List.take_left]
    simp only [mark?, hpunctuation, if_neg (hne '"' (by decide)), if_pos (Or.inr hdigit),
      hlength, Option.map_some, htake]
    rfl
  rw [marks?_mark hblank hmark, List.drop_left]

/-- The documents that are put together from values. Nothing in them is spelt in any
    other way than values are. -/
inductive Composed : Json → Prop where
  | null : Composed .null
  | nat (n : Nat) : Composed (nat n)
  | text (s : String) : Composed (text s)
  | array {items : List Json} (h : ∀ x ∈ items, Composed x) : Composed (.array items)
  | record {members : List (String × Json)} (h : ∀ m ∈ members, Composed m.2) :
      Composed (record members)

/-- The indented notation of a document is scanned to its marks, on any level. -/
def Scans (x : Json) : Prop :=
  ∀ (level : Nat) (rest : List Char), EndsNumber rest →
    marks? (x.indented level ++ rest) = follow x.marks (marks? rest)

theorem endsNumber_comma (rest : List Char) : EndsNumber (',' :: rest) :=
  endsNumber_cons (by decide) rest

theorem endsNumber_newLine (level : Nat) (rest : List Char) :
    EndsNumber (newLine level ++ rest) :=
  endsNumber_cons (by decide) _

theorem marks?_indentedItems (level : Nat) {rest : List Char} (hrest : EndsNumber rest) :
    ∀ (x : Json) (items : List Json), (∀ y ∈ x :: items, Scans y) →
      marks? (indentedItems level (x :: items) ++ rest) =
        follow (itemMarks (x :: items)) (marks? rest)
  | x, [], h => by
    rw [indentedItems, itemMarks, List.append_assoc, marks?_newLine, h x (by simp) _ _ hrest]
  | x, y :: items, h => by
    have hitems := marks?_indentedItems level hrest y items fun z hz => h z (by simp [hz])
    have hwritten : indentedItems level (x :: y :: items) =
        newLine level ++ x.indented level ++ [','] ++ indentedItems level (y :: items) := by
      rw [indentedItems]
      simp
    rw [hwritten, itemMarks_cons_cons, follow_append, follow_cons, ← hitems]
    simp only [List.append_assoc, List.cons_append, List.nil_append]
    rw [marks?_newLine, h x (by simp) _ _ (endsNumber_comma _),
      marks?_punctuation (m := .comma) rfl]

theorem marks?_member (level : Nat) (key : String) {x : Json} (h : Scans x)
    {rest : List Char} (hrest : EndsNumber rest) :
    marks? (newLine level ++ (quoted (quote key) ++ (':' :: ' ' :: (x.indented level ++ rest)))) =
      follow (.string (quote key) :: .colon :: x.marks) (marks? rest) := by
  rw [marks?_newLine, marks?_quoted, marks?_punctuation (m := .colon) rfl, marks?_blank rfl,
    h level rest hrest, ← follow_append, ← follow_append]
  rfl

theorem marks?_indentedMembers (level : Nat) {rest : List Char} (hrest : EndsNumber rest) :
    ∀ (m : List Char × Json) (members : List (List Char × Json)),
      (∀ m' ∈ m :: members, (∃ key, m'.1 = quote key) ∧ Scans m'.2) →
      marks? (indentedMembers level (m :: members) ++ rest) =
        follow (memberMarks (m :: members)) (marks? rest)
  | (_, x), [], h => by
    obtain ⟨⟨key, rfl⟩, hx⟩ := h _ (List.mem_singleton_self _)
    rw [indentedMembers, memberMarks]
    simp only [List.append_assoc, List.cons_append, List.nil_append]
    exact marks?_member level key hx hrest
  | (_, x), m :: members, h => by
    obtain ⟨⟨key, rfl⟩, hx⟩ := h _ List.mem_cons_self
    have hmembers := marks?_indentedMembers level hrest m members
      fun m' hm' => h m' (List.mem_cons_of_mem _ hm')
    have hwritten : indentedMembers level ((quote key, x) :: m :: members) =
        newLine level ++ quoted (quote key) ++ [':', ' '] ++ x.indented level ++ [','] ++
          indentedMembers level (m :: members) := by
      rw [indentedMembers]
      simp
    have hmember := marks?_member level key hx
      (endsNumber_comma (indentedMembers level (m :: members) ++ rest))
    rw [hwritten, memberMarks_cons_cons, ← List.cons_append, ← List.cons_append, follow_append,
      follow_cons .comma, ← hmembers]
    simp only [List.append_assoc, List.cons_append, List.nil_append]
    rw [hmember, marks?_punctuation (m := .comma) rfl]

theorem marks?_null (rest : List Char) :
    marks? ('n' :: 'u' :: 'l' :: 'l' :: rest) = follow [.null] (marks? rest) := by
  have hmark : mark? 'n' ('u' :: 'l' :: 'l' :: rest) = some (.null, 3) := by
    simp [mark?, punctuation?]
  exact marks?_mark rfl hmark

theorem Composed.scans {x : Json} (h : x.Composed) : Scans x := by
  induction h with
  | null =>
    intro level rest hrest
    exact marks?_null rest
  | nat n =>
    intro level rest hrest
    exact marks?_toDigits n hrest
  | text s =>
    intro level rest hrest
    exact marks?_quoted s rest
  | @array items h ih =>
    intro level rest hrest
    cases items with
    | nil =>
      show marks? ('[' :: ']' :: rest) = follow ([.arrayOpen] ++ [.arrayClose]) _
      rw [follow_append, marks?_punctuation (m := .arrayOpen) rfl,
        marks?_punctuation (m := .arrayClose) rfl]
    | cons x items =>
      have hitems := marks?_indentedItems (level + 1)
        (endsNumber_newLine level (']' :: rest)) x items ih
      rw [indented, marks, follow_cons, follow_append]
      simp only [List.append_assoc, List.cons_append, List.nil_append]
      rw [marks?_punctuation (m := .arrayOpen) rfl, hitems, marks?_newLine,
        marks?_punctuation (m := .arrayClose) rfl]
  | @record members h ih =>
    intro level rest hrest
    unfold Json.record
    cases members with
    | nil =>
      show marks? (openBrace :: closeBrace :: rest) = follow ([.objectOpen] ++ [.objectClose]) _
      rw [follow_append, marks?_punctuation (m := .objectOpen) rfl,
        marks?_punctuation (m := .objectClose) rfl]
    | cons m members =>
      have hspelt : ∀ m' ∈ (m :: members).map fun m' => (quote m'.1, m'.2),
          (∃ key, m'.1 = quote key) ∧ Scans m'.2 := by
        intro m' hm'
        obtain ⟨m'', hm'', rfl⟩ := List.mem_map.mp hm'
        exact ⟨⟨m''.1, rfl⟩, ih m'' hm''⟩
      have hmembers := marks?_indentedMembers (level + 1)
        (endsNumber_newLine level (closeBrace :: rest)) _ _ hspelt
      show marks? (indented level (.object ((quote m.1, m.2) ::
        members.map fun m' => (quote m'.1, m'.2))) ++ rest) = _
      rw [indented, marks, follow_cons, follow_append]
      simp only [List.append_assoc, List.cons_append, List.nil_append]
      rw [marks?_punctuation (m := .objectOpen) rfl, hmembers, marks?_newLine,
        marks?_punctuation (m := .objectClose) rfl]
      rfl

/-- **Documents** are read back from their indented notation. -/
theorem read?_pretty {x : Json} (h : x.Composed) : read? x.pretty = some x := by
  have hscan := h.scans 0 [] endsNumber_nil
  have hnil : marks? [] = some [] := by rw [marks?]
  rw [List.append_nil, hnil] at hscan
  have hmarks : marks? x.pretty.toList = some x.marks := by
    rw [pretty, String.toList_ofList, hscan]
    simp [follow]
  have hrun := Draft.run?_marks x [] []
  rw [List.append_nil] at hrun
  rw [read?, hmarks]
  exact hrun

end Json

end PageContent
