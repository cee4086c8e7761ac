import PageContent.Json.Read
import PageContent.Json.Write

/-! # Literals of JSON documents

    Texts and whole numbers are spelt so that both stages of reading get them back.

    * **Spellings**: a character is spelt as itself, by a letter after a backslash, or
      by its number.
    * **Strings**: the closing quote is found behind the spelling of a text, whatever
      comes after it, and the spelling stands for the text again.
    * **Numbers**: the digits of a number are found in front of anything that does not
      go on with it.
-/

namespace PageContent

namespace Json

/-! ## Characters -/

theorem hexValue?_hexDigit : ∀ n, n < 16 → hexValue? (hexDigit n) = some n := by
  decide

/-- A control is spelt by its number, in four digits. -/
theorem hexUnit?_control {c : Char} (h : c.toNat < 0x20) (rest : List Char) :
    hexUnit? ('0' :: '0' :: hexDigit (c.toNat / 16) :: hexDigit (c.toNat % 16) :: rest) =
      some c.toNat := by
  have hzero : hexValue? '0' = some 0 := by decide
  have hhigh := hexValue?_hexDigit (c.toNat / 16) (by omega)
  have hlow := hexValue?_hexDigit (c.toNat % 16) (Nat.mod_lt _ (by decide))
  simp only [hexUnit?, hzero, hhigh, hlow, Option.some.injEq]
  omega

/-- How a character may be spelt in a string. -/
inductive Spells (c : Char) : List Char → Prop where
  | itself (hquote : c ≠ '"') (hescape : c ≠ '\\') (hcontrol : ¬ c.toNat < 0x20) : Spells c [c]
  | letter {e : Char} (hu : e ≠ 'u') (h : shortEscape? e = some c) : Spells c ['\\', e]
  | numbered (h : c.toNat < 0x20) :
      Spells c ['\\', 'u', '0', '0', hexDigit (c.toNat / 16), hexDigit (c.toNat % 16)]

theorem spells_quoteChar (c : Char) : Spells c (quoteChar c) := by
  have hnumber : ∀ n, c.toNat = n → c = Char.ofNat n := by
    intro n hn
    rw [← hn, Char.ofNat_toNat]
  unfold quoteChar
  -- the characters in the order in which they are asked for
  split
  · next h => subst h; exact .letter (by decide) (by decide)
  split
  · next h => subst h; exact .letter (by decide) (by decide)
  split
  · next h => rw [hnumber _ h]; exact .letter (by decide) (by decide)
  split
  · next h => rw [hnumber _ h]; exact .letter (by decide) (by decide)
  split
  · next h => subst h; exact .letter (by decide) (by decide)
  split
  · next h => subst h; exact .letter (by decide) (by decide)
  split
  · next h => subst h; exact .letter (by decide) (by decide)
  split
  · next h => exact .numbered h
  · next hquote hescape _ _ _ _ _ hcontrol => exact .itself hquote hescape hcontrol

/-! ## Strings -/

/-- The closing quote is as much further as the spelling of a character is long. -/
theorem stringLength?_spells {c : Char} {literal : List Char} (h : Spells c literal)
    (rest : List Char) :
    stringLength? (literal ++ rest) = (stringLength? rest).map (· + literal.length) := by
  cases h with
  | itself hquote hescape hcontrol =>
    show stringLength? (c :: rest) = _
    rw [stringLength?, if_neg hquote, if_neg hescape, if_neg hcontrol]
    rfl
  | @letter e hu h =>
    have hwidth : escapeWidth? (e :: rest) = some 1 := by
      simp [escapeWidth?, hu, h]
    show stringLength? ('\\' :: e :: rest) = _
    rw [stringLength?, if_neg (by decide), if_pos rfl]
    simp only [hwidth]
    rfl
  | numbered h =>
    have hwidth : escapeWidth? ('u' :: '0' :: '0' :: hexDigit (c.toNat / 16) ::
        hexDigit (c.toNat % 16) :: rest) = some 5 := by
      simp [escapeWidth?, hexUnit?_control h]
    show stringLength? ('\\' :: 'u' :: '0' :: '0' :: hexDigit (c.toNat / 16) ::
      hexDigit (c.toNat % 16) :: rest) = _
    rw [stringLength?, if_neg (by decide), if_pos rfl]
    simp only [hwidth]
    rfl

theorem stringLength?_quote (s : String) (rest : List Char) :
    stringLength? (quote s ++ '"' :: rest) = some (quote s).length := by
  unfold quote
  induction s.toList with
  | nil =>
    show stringLength? ('"' :: rest) = some 0
    rw [stringLength?, if_pos rfl]
  | cons c cs ih =>
    rw [List.flatMap_cons, List.append_assoc, stringLength?_spells (spells_quoteChar c), ih,
      List.length_append, Nat.add_comm]
    rfl

/-- The spelling of a character stands for it, in front of other spellings. -/
theorem unquoteChars?_spells {c : Char} {literal : List Char} (h : Spells c literal)
    (rest : List Char) :
    unquoteChars? (literal ++ rest) = (unquoteChars? rest).map (c :: ·) := by
  cases h with
  | itself hquote hescape hcontrol =>
    show unquoteChars? (c :: rest) = _
    rw [unquoteChars?.eq_def]
    simp only [if_neg hescape]
  | @letter e hu h =>
    show unquoteChars? ('\\' :: e :: rest) = _
    rw [unquoteChars?.eq_def]
    simp only [if_true, if_neg hu, h]
  | numbered h =>
    -- a control is no half of a surrogate pair
    have hhigh : isHighSurrogate c.toNat = false := by
      simp only [isHighSurrogate, Bool.and_eq_false_iff, decide_eq_false_iff_not]
      omega
    have hlow : isLowSurrogate c.toNat = false := by
      simp only [isLowSurrogate, Bool.and_eq_false_iff, decide_eq_false_iff_not]
      omega
    have hnumbered : numberedEscape? ('0' :: '0' :: hexDigit (c.toNat / 16) ::
        hexDigit (c.toNat % 16) :: rest) = some (c, 4) := by
      simp [numberedEscape?, hexUnit?_control h, hhigh, hlow]
    show unquoteChars? ('\\' :: 'u' :: '0' :: '0' :: hexDigit (c.toNat / 16) ::
      hexDigit (c.toNat % 16) :: rest) = _
    rw [unquoteChars?.eq_def]
    simp only [if_true, hnumbered]
    rfl

/-- **Texts**: the spelling of a text stands for it. -/
theorem unquote?_quote (s : String) : unquote? (quote s) = some s := by
  have hchars : ∀ cs : List Char, unquoteChars? (cs.flatMap quoteChar) = some cs := by
    intro cs
    induction cs with
    | nil => rw [List.flatMap_nil, unquoteChars?]
    | cons c cs ih => rw [List.flatMap_cons, unquoteChars?_spells (spells_quoteChar c), ih]; rfl
  rw [unquote?, quote, hchars, Option.map_some, String.ofList_toList]

/-! ## Numbers -/

/-- These characters do not go on with a number in front of them. -/
def EndsNumber (rest : List Char) : Prop :=
  ∀ c ∈ rest.head?, c.isDigit = false ∧ c ≠ '.' ∧ c ≠ 'e' ∧ c ≠ 'E'

theorem endsNumber_nil : EndsNumber [] :=
  fun _ h => absurd h (by simp)

theorem endsNumber_cons {c : Char}
    (h : c.isDigit = false ∧ c ≠ '.' ∧ c ≠ 'e' ∧ c ≠ 'E') (rest : List Char) :
    EndsNumber (c :: rest) := by
  intro d hd
  obtain rfl := Option.some.inj hd
  exact h

theorem EndsNumber.digits {rest : List Char} (h : EndsNumber rest) : digits rest = [] := by
  cases rest with
  | nil => rfl
  | cons c rest => simp [Json.digits, (h c rfl).1]

theorem EndsNumber.fractionLength? {rest : List Char} (h : EndsNumber rest) :
    fractionLength? rest = some 0 := by
  unfold Json.fractionLength?
  split
  · exact absurd rfl (h '.' rfl).2.1
  · rfl

theorem EndsNumber.exponentLength? {rest : List Char} (h : EndsNumber rest) :
    exponentLength? rest = some 0 := by
  cases rest with
  | nil => rfl
  | cons c rest =>
    obtain ⟨-, -, hlower, hupper⟩ := h c rfl
    simp [Json.exponentLength?, hlower, hupper]

/-- A whole number starts with a zero only if it is zero. -/
theorem toDigits_cases (n : Nat) :
    Nat.toDigits 10 n = ['0'] ∨ ∃ c cs, Nat.toDigits 10 n = c :: cs ∧ c ≠ '0' := by
  induction n using Nat.strongRecOn with
  | ind n ih =>
    rcases Nat.lt_or_ge n 10 with hlt | hge
    · by_cases hzero : n = 0
      · exact .inl (by rw [hzero, Nat.toDigits_zero])
      · refine .inr ⟨n.digitChar, [], Nat.toDigits_of_lt_base hlt, ?_⟩
        rwa [Ne, Nat.digitChar_eq_zero]
    · -- the digits in front of the last one are those of a number above zero
      have hdigits := Nat.toDigits_of_base_le (n := n) (by decide : 1 < 10) hge
      rcases ih (n / 10) (by omega) with hzero | ⟨c, cs, hcs, hc⟩
      · have hvalue := congrArg (Nat.ofDigitChars 10 · 0) hzero
        simp only [Nat.ofDigitChars_ten_toDigits] at hvalue
        have hpos : n / 10 = 0 := hvalue
        omega
      · exact .inr ⟨c, _, by rw [hdigits, hcs]; rfl, hc⟩

theorem isDigit_of_mem_toDigits {n : Nat} {c : Char} (h : c ∈ Nat.toDigits 10 n) :
    c.isDigit = true :=
  Nat.isDigit_of_mem_toDigits (by decide) (by decide) h

theorem digits_toDigits (n : Nat) {rest : List Char} (h : EndsNumber rest) :
    digits (Nat.toDigits 10 n ++ rest) = Nat.toDigits 10 n := by
  have hrest : rest.takeWhile Char.isDigit = [] := h.digits
  rw [digits, List.takeWhile_append_of_pos fun c hc => isDigit_of_mem_toDigits hc, hrest,
    List.append_nil]

theorem wholeLength?_toDigits (n : Nat) {rest : List Char} (h : EndsNumber rest) :
    wholeLength? (Nat.toDigits 10 n ++ rest) = some (Nat.toDigits 10 n).length := by
  have hdigits := digits_toDigits n h
  rcases toDigits_cases n with hzero | ⟨c, cs, hcs, hc⟩
  · rw [hzero]
    rfl
  · have hdigit : c.isDigit = true := isDigit_of_mem_toDigits (n := n) (by simp [hcs])
    rw [hcs, List.cons_append] at hdigits ⊢
    rw [wholeLength?, if_neg hc, if_pos hdigit, hdigits]

/-- **Whole numbers** end where their digits do. -/
theorem numberLength?_toDigits (n : Nat) {rest : List Char} (h : EndsNumber rest) :
    numberLength? (Nat.toDigits 10 n ++ rest) = some (Nat.toDigits 10 n).length := by
  have hsign : (Nat.toDigits 10 n ++ rest).head? ≠ some '-' := by
    intro hhead
    obtain ⟨c, cs, hcs⟩ := List.exists_cons_of_ne_nil (Nat.toDigits_ne_nil (n := n) (b := 10))
    have hdigit : c.isDigit = true := isDigit_of_mem_toDigits (n := n) (by simp [hcs])
    rw [hcs] at hhead
    obtain rfl : c = '-' := Option.some.inj hhead
    exact absurd hdigit (by decide)
  unfold numberLength?
  simp only [if_neg hsign, List.drop_zero, wholeLength?_toDigits n h, Option.bind_eq_bind,
    Option.bind_some, List.drop_left, h.fractionLength?, h.exponentLength?]
  simp

theorem nat?_nat (n : Nat) : (nat n).nat? = some n := by
  have hdigits : (Nat.toDigits 10 n).all Char.isDigit = true :=
    List.all_eq_true.mpr fun c hc => isDigit_of_mem_toDigits hc
  rw [nat, nat?, if_pos hdigits, Nat.ofDigitChars_ten_toDigits]

end Json

end PageContent
