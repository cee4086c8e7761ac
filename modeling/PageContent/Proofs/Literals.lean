import PageContent.Proofs.Writing
import PageContent.Proofs.Lexing

/-! # Literal strings and their grammar

    What a string in parentheses denotes, as a grammar over the bytes after its first
    parenthesis, without the lexer.

    * **Elements** are plain bytes, line ends and escapes. What an element is depends on
      the byte after it in two cases only: a carriage return before a line feed, and an
      octal escape of fewer than three digits before another digit.
    * **Balance**: the string ends at the first parenthesis, not part of an escape, at
      which those that close outnumber those that open.
    * **Reading**: the lexer divides the bytes in this way, and there is a fault if they
      cannot be divided so.
-/

namespace PageContent

namespace LiteralString

/-! ## Elements -/

/-- Some bytes of a string, and the bytes that they denote. -/
structure Element where
  source : List UInt8
  value : List UInt8
  deriving DecidableEq, Repr

/-- What `es` are written as. -/
def text (es : List Element) : List UInt8 :=
  es.flatMap (·.source)

/-- What `es` denote, in order. -/
def value (es : List Element) : List UInt8 :=
  es.flatMap (·.value)

theorem text_cons (e : Element) (es : List Element) : text (e :: es) = e.source ++ text es :=
  rfl

theorem value_cons (e : Element) (es : List Element) : value (e :: es) = e.value ++ value es :=
  rfl

/-- The letters that denote a control after a backslash. -/
def controls : List (UInt8 × UInt8) :=
  [(Byte.ofChar 'n', 0x0A), (Byte.ofChar 'r', 0x0D), (Byte.ofChar 't', 0x09),
    (Byte.ofChar 'b', 0x08), (Byte.ofChar 'f', 0x0C)]

/-- The number that octal digits stand for, the highest one first. -/
def octalNumber : List UInt8 → Nat
  | [] => 0
  | d :: digits => Byte.digitValue d * 8 ^ digits.length + octalNumber digits

/-- A line end that starts with a carriage return. -/
inductive IsReturn : List UInt8 → List UInt8 → Prop where
  | alone {rest : List UInt8} (h : rest.head? ≠ some 0x0A) : IsReturn [0x0D] rest
  | pair {rest : List UInt8} : IsReturn [0x0D, 0x0A] rest

/-- The elements that can come before `rest`. -/
inductive IsElement : Element → List UInt8 → Prop where
  | plain {b : UInt8} {rest : List UInt8} (hbackslash : b ≠ Byte.ofChar '\\')
      (hreturn : b ≠ 0x0D) : IsElement ⟨[b], [b]⟩ rest
  | lineEnd {s rest : List UInt8} (h : IsReturn s rest) : IsElement ⟨s, [0x0A]⟩ rest
  | control {c v : UInt8} {rest : List UInt8} (h : (c, v) ∈ controls) :
      IsElement ⟨[Byte.ofChar '\\', c], [v]⟩ rest
  | octal {digits rest : List UInt8} (hdigits : ∀ d ∈ digits, Byte.isOctalDigit d = true)
      (hone : 1 ≤ digits.length) (hthree : digits.length ≤ 3)
      (hlongest : digits.length < 3 → ∀ d, rest.head? = some d → Byte.isOctalDigit d = false) :
      IsElement ⟨Byte.ofChar '\\' :: digits, [UInt8.ofNat (octalNumber digits % 256)]⟩ rest
  | continuation {s rest : List UInt8} (h : IsReturn s rest ∨ s = [0x0A]) :
      IsElement ⟨Byte.ofChar '\\' :: s, []⟩ rest
  | escaped {b : UInt8} {rest : List UInt8} (hoctal : Byte.isOctalDigit b = false)
      (hreturn : b ≠ 0x0D) (hfeed : b ≠ 0x0A) (hcontrol : b ∉ controls.map Prod.fst) :
      IsElement ⟨[Byte.ofChar '\\', b], [b]⟩ rest

/-- Elements one after the other, with `rest` after the last one. -/
inductive InRow : List Element → List UInt8 → Prop where
  | nil {rest : List UInt8} : InRow [] rest
  | cons {e : Element} {es : List Element} {rest : List UInt8}
      (h : IsElement e (text es ++ rest)) (hes : InRow es rest) : InRow (e :: es) rest

/-! ## The next element -/

theorem foldl_octalNumber (digits : List UInt8) (n : Nat) :
    digits.foldl (fun n d => n * 8 + Byte.digitValue d) n =
      n * 8 ^ digits.length + octalNumber digits := by
  induction digits generalizing n with
  | nil => simp [octalNumber]
  | cons d digits ih =>
    rw [List.foldl_cons, ih, octalNumber, List.length_cons, Nat.add_mul, Nat.mul_assoc,
      Nat.pow_succ', Nat.add_assoc]

theorem octalValue_eq (digits : List UInt8) :
    octalValue digits = UInt8.ofNat (octalNumber digits % 256) := by
  rw [octalValue, foldl_octalNumber, Nat.zero_mul, Nat.zero_add]
  apply UInt8.toNat_inj.mp
  simp

/-- An octal escape takes the digits that it can. -/
theorem octalDigits_append {digits rest : List UInt8}
    (hdigits : ∀ d ∈ digits, Byte.isOctalDigit d = true) (hthree : digits.length ≤ 3)
    (hlongest : digits.length < 3 → ∀ d, rest.head? = some d → Byte.isOctalDigit d = false) :
    octalDigits (digits ++ rest) = digits := by
  unfold octalDigits
  rw [List.take_append, List.take_of_length_le hthree, List.takeWhile_append_of_pos hdigits]
  by_cases hlt : digits.length < 3
  · cases rest with
    | nil => simp
    | cons d rest =>
      obtain ⟨k, hk⟩ : ∃ k, 3 - digits.length = k + 1 := ⟨2 - digits.length, by omega⟩
      simp [hk, hlongest hlt d rfl]
  · rw [Nat.sub_eq_zero_of_le (by omega)]
    simp

theorem octalDigits_spec (bytes : List UInt8) :
    octalDigits bytes = bytes.take (octalDigits bytes).length ∧
      (∀ d ∈ octalDigits bytes, Byte.isOctalDigit d = true) ∧
      (octalDigits bytes).length ≤ 3 ∧
      ((octalDigits bytes).length < 3 →
        ∀ d, (bytes.drop (octalDigits bytes).length).head? = some d →
          Byte.isOctalDigit d = false) := by
  have hpart : octalDigits bytes <+: bytes.take 3 := List.takeWhile_prefix _
  refine ⟨?_, ?_, ?_, ?_⟩
  · exact List.prefix_iff_eq_take.mp (hpart.trans (List.take_prefix 3 bytes))
  · exact List.all_eq_true.mp List.all_takeWhile
  · have hle := hpart.length_le
    rw [List.length_take] at hle
    omega
  · intro hlt d hd
    -- the byte after the digits is the first one at which the run stops
    have hsplit := List.takeWhile_append_dropWhile (p := Byte.isOctalDigit) (l := bytes.take 3)
    have hdrop : (bytes.take 3).drop (octalDigits bytes).length =
        (bytes.take 3).dropWhile Byte.isOctalDigit := by
      calc (bytes.take 3).drop (octalDigits bytes).length
          = (octalDigits bytes ++ (bytes.take 3).dropWhile Byte.isOctalDigit).drop
              (octalDigits bytes).length := by rw [octalDigits, hsplit]
        _ = (bytes.take 3).dropWhile Byte.isOctalDigit := List.drop_left
    have hstop := List.head?_dropWhile_not Byte.isOctalDigit (bytes.take 3)
    rw [← hdrop, List.head?_drop, List.getElem?_take_of_lt hlt] at hstop
    rw [List.head?_drop] at hd
    rw [hd] at hstop
    exact hstop

theorem lineFeedAfter_append {s rest : List UInt8} (h : IsReturn (0x0D :: s) rest) :
    lineFeedAfter (s ++ rest) = s.length := by
  cases h with
  | alone h =>
    match rest with
    | [] => rfl
    | b :: rest =>
      have hne : b ≠ 0x0A := fun hb => h (congrArg some hb)
      simp [lineFeedAfter, hne]
  | pair => rfl

theorem isReturn_lineFeedAfter (rest : List UInt8) :
    IsReturn (0x0D :: rest.take (lineFeedAfter rest)) (rest.drop (lineFeedAfter rest)) := by
  match rest with
  | [] => exact .alone (by simp)
  | b :: rest =>
    by_cases hb : b = 0x0A
    · subst hb
      exact .pair
    · simp only [lineFeedAfter, if_neg hb]
      exact .alone fun h => hb (Option.some.inj h)

/-- An element is read as what it denotes. -/
theorem element_of_isElement {b : UInt8} {s v rest : List UInt8}
    (h : IsElement ⟨b :: s, v⟩ rest) : element b (s ++ rest) = (v, s.length) := by
  cases h with
  | plain hbackslash hreturn => simp [element, hbackslash, hreturn]
  | lineEnd h =>
    have hb : b = 0x0D := by
      cases h <;> rfl
    subst hb
    have hne : (0x0D : UInt8) ≠ Byte.ofChar '\\' := by decide
    rw [element, if_neg hne, if_pos rfl, lineFeedAfter_append h]
  | @control c v _ h =>
    rw [element_backslash]
    simp only [controls, List.mem_cons, List.not_mem_nil, or_false, Prod.mk.injEq] at h
    rcases h with ⟨rfl, rfl⟩ | ⟨rfl, rfl⟩ | ⟨rfl, rfl⟩ | ⟨rfl, rfl⟩ | ⟨rfl, rfl⟩ <;> rfl
  | octal hdigits hone hthree hlongest =>
    rw [element_backslash, ← octalValue_eq]
    cases s with
    | nil => exact absurd hone (by simp)
    | cons d digits =>
      have hrun := octalDigits_append hdigits hthree hlongest
      rw [List.cons_append] at hrun ⊢
      simp only [escape, hdigits d List.mem_cons_self, if_true, hrun]
  | continuation h =>
    rw [element_backslash]
    rcases h with h | rfl
    · cases s with
      | nil => cases h
      | cons c s =>
        have hc : c = 0x0D := by
          cases h <;> rfl
        subst hc
        have hoctal : ¬ Byte.isOctalDigit 0x0D = true := by decide
        rw [List.cons_append, escape, if_neg hoctal, if_pos rfl, lineFeedAfter_append h,
          List.length_cons, Nat.add_comm]
    · rfl
  | @escaped c _ hoctal hreturn hfeed hcontrol =>
    have hletters : c ≠ Byte.ofChar 'n' ∧ c ≠ Byte.ofChar 'r' ∧ c ≠ Byte.ofChar 't' ∧
        c ≠ Byte.ofChar 'b' ∧ c ≠ Byte.ofChar 'f' := by
      simpa [controls] using hcontrol
    rw [element_backslash]
    simp [escape, hoctal, hreturn, hfeed, hletters]

theorem isElement_escape (b : UInt8) (rest : List UInt8) :
    IsElement ⟨Byte.ofChar '\\' :: (b :: rest).take (escape (b :: rest)).2,
      (escape (b :: rest)).1⟩ ((b :: rest).drop (escape (b :: rest)).2) := by
  by_cases hoctal : Byte.isOctalDigit b = true
  · obtain ⟨htake, hdigits, hthree, hlongest⟩ := octalDigits_spec (b :: rest)
    have hone : 1 ≤ (octalDigits (b :: rest)).length := by
      simp [octalDigits, hoctal]
    have hescape : escape (b :: rest) =
        ([octalValue (octalDigits (b :: rest))], (octalDigits (b :: rest)).length) := by
      rw [escape, if_pos hoctal]
    rw [hescape]
    simp only [← htake, octalValue_eq]
    exact .octal hdigits hone hthree hlongest
  by_cases hreturn : b = 0x0D
  · have hescape : escape (b :: rest) = ([], 1 + lineFeedAfter rest) := by
      rw [escape, if_neg hoctal, if_pos hreturn]
    rw [hescape, Nat.add_comm]
    subst hreturn
    exact .continuation (.inl (isReturn_lineFeedAfter rest))
  by_cases hfeed : b = 0x0A
  · subst hfeed
    exact .continuation (.inr rfl)
  by_cases hcontrol : b ∈ controls.map Prod.fst
  · obtain ⟨⟨b, v⟩, hv, rfl⟩ := List.mem_map.mp hcontrol
    have hescape : escape (b :: rest) = ([v], 1) := by
      rw [← element_backslash]
      exact element_of_isElement (.control hv)
    rw [hescape]
    exact .control hv
  · have helement : IsElement ⟨[Byte.ofChar '\\', b], [b]⟩ rest :=
      .escaped (Bool.eq_false_iff.mpr hoctal) hreturn hfeed hcontrol
    have hescape : escape (b :: rest) = ([b], 1) := by
      rw [← element_backslash]
      exact element_of_isElement helement
    rw [hescape]
    exact helement

/-- What is read is an element, unless it is a backslash at the end of the bytes. -/
theorem isElement_element {b : UInt8} {rest : List UInt8}
    (hne : b = Byte.ofChar '\\' → rest ≠ []) :
    IsElement ⟨b :: rest.take (element b rest).2, (element b rest).1⟩
      (rest.drop (element b rest).2) := by
  by_cases hbackslash : b = Byte.ofChar '\\'
  · subst hbackslash
    rw [element_backslash]
    match rest with
    | [] => exact absurd rfl (hne rfl)
    | c :: rest => exact isElement_escape c rest
  by_cases hreturn : b = 0x0D
  · subst hreturn
    rw [element, if_neg hbackslash, if_pos rfl]
    exact .lineEnd (isReturn_lineFeedAfter rest)
  · rw [element, if_neg hbackslash, if_neg hreturn]
    exact .plain hbackslash hreturn

/-! ## Balance -/

/-- A parenthesis that is not escaped. -/
def paren (c : Char) : Element :=
  ⟨[Byte.ofChar c], [Byte.ofChar c]⟩

/-- More parentheses are closed than opened. -/
def Outnumbers (es : List Element) : Prop :=
  es.count (paren '(') < es.count (paren ')')

/-- The bytes `rest` are the elements of a string, the parenthesis that ends it, and
    what comes after it. -/
structure Ends (rest : List UInt8) (body : List Element) (after : List UInt8) : Prop where
  bytes : rest = text body ++ Byte.ofChar ')' :: after
  elements : InRow body (Byte.ofChar ')' :: after)
  first : ∀ earlier, earlier <+: body → ¬ Outnumbers earlier
  ends : Outnumbers (body ++ [paren ')'])

/-- As many parentheses are closed as have been opened, `depth` of them before, and
    never more. -/
structure Closes (depth : Nat) (es : List Element) : Prop where
  never : ∀ earlier, earlier <+: es →
    earlier.count (paren ')') ≤ earlier.count (paren '(') + depth
  all : es.count (paren ')') = es.count (paren '(') + depth

theorem closes_iff_take {depth : Nat} {es : List Element} :
    Closes depth es ↔
      (∀ n < es.length + 1,
        (es.take n).count (paren ')') ≤ (es.take n).count (paren '(') + depth) ∧
      es.count (paren ')') = es.count (paren '(') + depth := by
  constructor
  · intro h
    exact ⟨fun n _ => h.never _ (List.take_prefix n es), h.all⟩
  · rintro ⟨hnever, hall⟩
    refine ⟨?_, hall⟩
    intro earlier hp
    rw [List.prefix_iff_eq_take.mp hp]
    exact hnever _ (Nat.lt_succ_of_le hp.length_le)

instance {depth : Nat} {es : List Element} : Decidable (Closes depth es) :=
  decidable_of_iff _ closes_iff_take.symm

variable {depth : Nat} {e : Element} {es body : List Element} {b : UInt8}
  {bytes rest after v : List UInt8}

theorem paren_ne_paren : paren '(' ≠ paren ')' := by
  decide

theorem closes_nil : Closes depth [] ↔ depth = 0 := by
  constructor
  · intro h
    simpa using h.all.symm
  · rintro rfl
    exact ⟨fun earlier h => by simp [List.prefix_nil.mp h], rfl⟩

/-- The parts of a sequence are the empty one and those that begin as it does. -/
theorem closes_cons :
    Closes depth (e :: es) ↔
      (∀ earlier, earlier <+: es →
        (e :: earlier).count (paren ')') ≤ (e :: earlier).count (paren '(') + depth) ∧
      (e :: es).count (paren ')') = (e :: es).count (paren '(') + depth := by
  constructor
  · intro h
    exact ⟨fun earlier hp => h.never _ (List.cons_prefix_cons.mpr ⟨rfl, hp⟩), h.all⟩
  · rintro ⟨hnever, hall⟩
    refine ⟨?_, hall⟩
    intro earlier hp
    rcases List.prefix_cons_iff.mp hp with rfl | ⟨t, rfl, ht⟩
    · simp
    · exact hnever t ht

theorem closes_open : Closes depth (paren '(' :: es) ↔ Closes (depth + 1) es := by
  rw [closes_cons]
  simp only [List.count_cons_self, List.count_cons_of_ne paren_ne_paren]
  constructor
  · rintro ⟨hnever, hall⟩
    refine ⟨fun earlier hp => ?_, by omega⟩
    have := hnever earlier hp
    omega
  · rintro ⟨hnever, hall⟩
    refine ⟨fun earlier hp => ?_, by omega⟩
    have := hnever earlier hp
    omega

theorem closes_close :
    Closes depth (paren ')' :: es) ↔ ∃ outer, depth = outer + 1 ∧ Closes outer es := by
  rw [closes_cons]
  simp only [List.count_cons_self, List.count_cons_of_ne paren_ne_paren.symm]
  constructor
  · rintro ⟨hnever, hall⟩
    -- this one closes a parenthesis already
    have hone := hnever [] List.nil_prefix
    obtain ⟨outer, rfl⟩ : ∃ outer, depth = outer + 1 := ⟨depth - 1, by simp at hone; omega⟩
    refine ⟨outer, rfl, fun earlier hp => ?_, by omega⟩
    have := hnever earlier hp
    omega
  · rintro ⟨outer, rfl, hnever, hall⟩
    refine ⟨fun earlier hp => ?_, by omega⟩
    have := hnever earlier hp
    omega

theorem closes_other (hopen : e ≠ paren '(') (hclose : e ≠ paren ')') :
    Closes depth (e :: es) ↔ Closes depth es := by
  rw [closes_cons]
  simp only [List.count_cons_of_ne hopen, List.count_cons_of_ne hclose]
  exact ⟨fun h => ⟨h.1, h.2⟩, fun h => ⟨h.never, h.all⟩⟩

theorem ends_iff :
    Ends rest body after ↔
      rest = text body ++ Byte.ofChar ')' :: after ∧ InRow body (Byte.ofChar ')' :: after) ∧
        Closes 0 body := by
  have hcount : Outnumbers (body ++ [paren ')']) ↔
      body.count (paren '(') ≤ body.count (paren ')') := by
    unfold Outnumbers
    rw [List.count_append, List.count_append, List.count_singleton_self,
      List.count_singleton, if_neg (by simpa using paren_ne_paren.symm)]
    omega
  constructor
  · intro h
    refine ⟨h.bytes, h.elements, fun earlier hp => ?_, ?_⟩
    · exact Nat.le_of_not_lt (h.first earlier hp)
    · exact Nat.le_antisymm (Nat.le_of_not_lt (h.first body List.prefix_rfl)) (hcount.mp h.ends)
  · rintro ⟨hbytes, hrow, hcloses⟩
    refine ⟨hbytes, hrow, fun earlier hp => ?_, ?_⟩
    · exact Nat.not_lt_of_le (hcloses.never earlier hp)
    · exact hcount.mpr (Nat.le_of_eq hcloses.all.symm)

/-! ## The contents -/

theorem IsElement.exists_source (h : IsElement e rest) : ∃ b s, e.source = b :: s := by
  cases h with
  | lineEnd h => cases h <;> exact ⟨_, _, rfl⟩
  | _ => exact ⟨_, _, rfl⟩

/-- What starts with a parenthesis is that parenthesis. -/
theorem IsElement.eq_paren {s : List UInt8} (h : IsElement e rest) {c : Char}
    (hc : c = '(' ∨ c = ')') (hs : e.source = Byte.ofChar c :: s) : e = paren c := by
  have hne : Byte.ofChar c ≠ Byte.ofChar '\\' ∧ Byte.ofChar c ≠ 0x0D := by
    rcases hc with rfl | rfl <;> decide
  cases h with
  | plain =>
    obtain ⟨rfl, -⟩ := List.cons.inj hs
    rfl
  | lineEnd h =>
    cases h with
    | alone => exact absurd (List.cons.inj hs).1.symm hne.2
    | pair => exact absurd (List.cons.inj hs).1.symm hne.2
  | _ => exact absurd (List.cons.inj hs).1.symm hne.1

theorem isElement_paren {c : Char} (hc : c = '(' ∨ c = ')') : IsElement (paren c) rest := by
  have hne : Byte.ofChar c ≠ Byte.ofChar '\\' ∧ Byte.ofChar c ≠ 0x0D := by
    rcases hc with rfl | rfl <;> decide
  exact .plain hne.1 hne.2

/-- One element in front of others. -/
theorem contents_isElement (h : IsElement e rest) (hopen : e ≠ paren '(')
    (hclose : e ≠ paren ')') :
    contents depth (e.source ++ rest) =
      (contents depth rest).map fun (value, width) =>
        (e.value ++ value, width + e.source.length) := by
  obtain ⟨b, s, hs⟩ := h.exists_source
  have hb : b ≠ Byte.ofChar '(' := by
    rintro rfl
    exact hopen (h.eq_paren (.inl rfl) hs)
  have hb' : b ≠ Byte.ofChar ')' := by
    rintro rfl
    exact hclose (h.eq_paren (.inr rfl) hs)
  obtain ⟨source, v⟩ := e
  obtain rfl : source = b :: s := hs
  have helement := element_of_isElement h
  simp only [List.cons_append]
  rw [contents_element hb hb', helement, List.drop_left]
  simp only [List.length_cons, Nat.add_assoc]

/-- One element, with the depth at which the others are read. -/
theorem Closes.exists_contents (hcloses : Closes depth (e :: es)) (h : IsElement e rest) :
    ∃ inner, Closes inner es ∧
      contents depth (e.source ++ rest) =
        (contents inner rest).map fun (value, width) =>
          (e.value ++ value, width + e.source.length) := by
  by_cases hopen : e = paren '('
  · subst hopen
    exact ⟨depth + 1, closes_open.mp hcloses, contents_open depth rest⟩
  by_cases hclose : e = paren ')'
  · subst hclose
    obtain ⟨outer, rfl, hes⟩ := closes_close.mp hcloses
    exact ⟨outer, hes, contents_close outer rest⟩
  · exact ⟨depth, (closes_other hopen hclose).mp hcloses, contents_isElement h hopen hclose⟩

/-- **Completeness**: the elements up to the end of a string are its contents. -/
theorem contents_of_closes (hrow : InRow body rest) (hrest : rest = Byte.ofChar ')' :: after)
    (hcloses : Closes depth body) :
    contents depth (text body ++ rest) = some (value body, (text body).length + 1) := by
  induction hrow generalizing depth with
  | nil =>
    obtain rfl := closes_nil.mp hcloses
    subst hrest
    exact contents_end after
  | @cons e es rest h hes ih =>
    obtain ⟨inner, hinner, hcontents⟩ := hcloses.exists_contents h
    rw [text_cons, value_cons, List.append_assoc, hcontents, ih hrest hinner]
    simp only [Option.map_some, List.length_append, Option.some.injEq, Prod.mk.injEq, true_and]
    omega

/-- **Soundness**: contents are those of elements, up to the end of a string. -/
theorem exists_of_contents {width : Nat} (h : contents depth bytes = some (v, width)) :
    ∃ body after, bytes = text body ++ Byte.ofChar ')' :: after ∧
      InRow body (Byte.ofChar ')' :: after) ∧ Closes depth body := by
  fun_induction contents depth bytes generalizing v width with
  | case1 depth => exact absurd h (by simp)
  | case2 depth rest ih =>
    obtain ⟨⟨v, w⟩, hrest, -⟩ := Option.map_eq_some_iff.mp h
    obtain ⟨body, after, rfl, hrow, hcloses⟩ := ih hrest
    exact ⟨paren '(' :: body, after, rfl, .cons (isElement_paren (.inl rfl)) hrow,
      closes_open.mpr hcloses⟩
  | case3 rest hne => exact ⟨[], rest, rfl, .nil, closes_nil.mpr rfl⟩
  | case4 rest outer hne ih =>
    obtain ⟨⟨v, w⟩, hrest, -⟩ := Option.map_eq_some_iff.mp h
    obtain ⟨body, after, rfl, hrow, hcloses⟩ := ih hrest
    exact ⟨paren ')' :: body, after, rfl, .cons (isElement_paren (.inr rfl)) hrow,
      closes_close.mpr ⟨outer, rfl, hcloses⟩⟩
  | case5 depth b rest hopen hclose denoted taken helement ih =>
    obtain ⟨⟨v, w⟩, hrest, -⟩ := Option.map_eq_some_iff.mp h
    obtain ⟨body, after, hdrop, hrow, hcloses⟩ := ih hrest
    have hne : b = Byte.ofChar '\\' → rest ≠ [] := by
      rintro - rfl
      simp at hdrop
    have hread := isElement_element hne
    rw [helement, hdrop] at hread
    refine ⟨⟨b :: rest.take taken, denoted⟩ :: body, after, ?_, .cons hread hrow, ?_⟩
    · rw [text_cons, List.append_assoc, ← hdrop, List.cons_append, List.take_append_drop]
    · apply (closes_other ?_ ?_).mpr hcloses
      · exact fun he => hopen (List.cons.inj (congrArg Element.source he)).1
      · exact fun he => hclose (List.cons.inj (congrArg Element.source he)).1

end LiteralString

namespace Lexer

open LiteralString

variable {l : Lexer} {rest : List UInt8}

theorem reading_literal (hdata : l.dataNext = false)
    (hrest : l.rest.drop l.gap = Byte.ofChar '(' :: rest) :
    l.reading = Reading.literal rest := by
  rw [reading_plain hdata, hrest, Reading.ofBytes_literal]

/-- **Literal strings** are read as their grammar says: up to the parenthesis that ends
    them, with what their elements denote. If there is none, there is a fault at the
    first parenthesis. -/
theorem next_literal (hdata : l.dataNext = false)
    (hrest : l.rest.drop l.gap = Byte.ofChar '(' :: rest) :
    (∀ body after, Ends rest body after →
      l.next = (.ok ⟨.literal (value body),
          ⟨l.position + l.gap, l.position + l.gap + (text body).length + 2⟩⟩,
        ⟨after, l.position + l.gap + (text body).length + 2, false⟩)) ∧
    ((∀ body after, ¬ Ends rest body after) →
      ∃ l', l.next = (.error ⟨l.position + l.gap, .unterminatedLiteral⟩, l')) := by
  have hreading := reading_literal hdata hrest
  constructor
  · intro body after hends
    obtain ⟨hbytes, hrow, hcloses⟩ := ends_iff.mp hends
    have hcontents := contents_of_closes hrow rfl hcloses
    have hread : l.reading = .token (.literal (value body)) ((text body).length + 2) := by
      rw [hreading, Reading.literal, hbytes, hcontents]
    have hafter : (l.rest.drop l.gap).drop ((text body).length + 2) = after := by
      rw [hrest, hbytes, List.drop_succ_cons, ← List.drop_drop, List.drop_left]
      rfl
    have hstop : l.position + l.gap + ((text body).length + 2) =
        l.position + l.gap + (text body).length + 2 := (Nat.add_assoc _ _ _).symm
    rw [next_of_token hread, hafter, hstop]
    simp
  · intro hnone
    have hcontents : contents 0 rest = none := by
      cases h : contents 0 rest with
      | none => rfl
      | some found =>
        obtain ⟨v, width⟩ := found
        obtain ⟨body, after, hends⟩ := exists_of_contents h
        exact absurd (ends_iff.mpr hends) (hnone body after)
    have hread : l.reading = .fault .unterminatedLiteral 0 (rest.length + 1) := by
      rw [hreading, Reading.literal, hcontents]
    rw [next, hread]
    exact ⟨_, rfl⟩

/-- Parentheses within a string, one of them escaped; and a string without an end. -/
theorem next_literal_nested :
    (ofBytes (Byte.ofChars "(\\751(\\)\r\n)) Tj".toList)).next =
        (.ok ⟨.literal (0xE9 :: Byte.ofChars "()\n)".toList), ⟨0, 12⟩⟩,
          ⟨Byte.ofChars " Tj".toList, 12, false⟩) ∧
      ∃ l', (ofBytes (Byte.ofChars "(a\\)".toList)).next =
        (.error ⟨0, .unterminatedLiteral⟩, l') := by
  constructor
  · have hrow : InRow [⟨Byte.ofChars ['\\', '7', '5', '1'], [0xE9]⟩, paren '(',
        ⟨Byte.ofChars ['\\', ')'], Byte.ofChars [')']⟩, ⟨[0x0D, 0x0A], [0x0A]⟩, paren ')']
        (Byte.ofChars [')', ' ', 'T', 'j']) :=
      .cons (.octal (List.all_eq_true.mp (by decide)) (by decide) (by decide) (by decide)) <|
        .cons (isElement_paren (.inl rfl)) <|
        .cons (.escaped (by decide) (by decide) (by decide) (by decide)) <|
        .cons (.lineEnd .pair) <| .cons (isElement_paren (.inr rfl)) .nil
    have hends : Ends (Byte.ofChars "\\751(\\)\r\n)) Tj".toList) _ (Byte.ofChars [' ', 'T', 'j']) :=
      ends_iff.mpr ⟨rfl, hrow, by decide⟩
    exact (next_literal rfl rfl).1 _ _ hends
  · refine (next_literal rfl rfl).2 ?_
    intro body after hends
    obtain ⟨hbytes, hrow, hcloses⟩ := ends_iff.mp hends
    have hsome := contents_of_closes hrow rfl hcloses
    rw [← hbytes] at hsome
    have hnone : contents 0 (Byte.ofChars "a\\)".toList) = none := by decide +kernel
    exact absurd (hnone.symm.trans hsome) (by simp)

end Lexer

end PageContent
