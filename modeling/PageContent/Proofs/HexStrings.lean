import PageContent.Proofs.Lexing

/-! # Hex strings and their digits

    What a string in angle brackets denotes, in terms of the digits between its brackets.

    * **Digits** are what is left of the bytes without the blanks. If their number is odd,
      a zero comes after them.
    * **Halves**: the digits are the halves of the bytes that the string denotes, the high
      half of each byte before the low one.
    * **Reading**: a byte that is neither digit nor blank is found before anything that
      comes after it, be it the end of the string or that there is none.
-/

namespace PageContent

namespace HexString

/-! ## Digits and halves -/

/-- The byte is neither a digit nor a blank. -/
def IsForeign (b : UInt8) : Prop :=
  Byte.hexValue? b = none ∧ Byte.isBlank b = false

instance (b : UInt8) : Decidable (IsForeign b) :=
  inferInstanceAs (Decidable (_ ∧ _))

/-- The digits of a string, for what stands inside its brackets. -/
def digits (inner : List UInt8) : List Nat :=
  (inner.filter fun b => !Byte.isBlank b).filterMap Byte.hexValue?

/-- An even number of digits: a zero comes after them if it has to. -/
def padded (ds : List Nat) : List Nat :=
  if ds.length % 2 = 0 then ds else ds ++ [0]

/-- The two digits of a byte, the high one first. -/
def halves (b : UInt8) : List Nat :=
  [b.toNat / 16, b.toNat % 16]

theorem isInner_iff {b : UInt8} : isInner b = true ↔ ¬ IsForeign b := by
  unfold isInner IsForeign
  cases Byte.hexValue? b <;> simp

theorem hexValue?_lt {b : UInt8} {d : Nat} (h : Byte.hexValue? b = some d) : d < 16 := by
  have hall : ∀ b : UInt8, (Byte.hexValue? b).all (· < 16) = true :=
    Byte.forall_of_fin (by decide +kernel)
  have hb := hall b
  rw [h] at hb
  exact of_decide_eq_true hb

/-- No blank is a digit. -/
theorem hexValue?_of_isBlank (b : UInt8) (h : Byte.isBlank b = true) :
    Byte.hexValue? b = none := by
  revert b
  exact Byte.forall_of_fin (by decide +kernel)

/-- Blanks do not count. -/
theorem digits_eq (inner : List UInt8) : digits inner = inner.filterMap Byte.hexValue? := by
  unfold digits
  induction inner with
  | nil => rfl
  | cons b inner ih =>
    rw [List.filterMap_cons, ← ih]
    cases hb : Byte.isBlank b with
    | false => simp [hb, List.filterMap_cons]
    | true => simp [hb, hexValue?_of_isBlank b hb]

theorem lt_of_mem_digits {inner : List UInt8} {d : Nat} (h : d ∈ digits inner) : d < 16 := by
  rw [digits_eq] at h
  obtain ⟨b, -, hb⟩ := List.mem_filterMap.mp h
  exact hexValue?_lt hb

/-- A byte made of two digits has these halves. -/
theorem halves_toUInt8 {high low : Nat} (hhigh : high < 16) (hlow : low < 16) :
    halves (16 * high + low).toUInt8 = [high, low] := by
  have hnat : (16 * high + low).toUInt8.toNat = 16 * high + low :=
    UInt8.toNat_ofNat_of_lt' (by simp [UInt8.size]; omega)
  have hdiv : (16 * high + low) / 16 = high := by omega
  have hmod : (16 * high + low) % 16 = low := by omega
  rw [halves, hnat, hdiv, hmod]

theorem padded_cons_cons (high low : Nat) (ds : List Nat) :
    padded (high :: low :: ds) = high :: low :: padded ds := by
  have hlength : (high :: low :: ds).length % 2 = ds.length % 2 := by
    simp only [List.length_cons]
    omega
  unfold padded
  rw [hlength]
  split <;> rfl

/-- **Halves**: pairs of digits are bytes with these halves. -/
theorem flatMap_halves_pairs {ds : List Nat} (h : ∀ d ∈ ds, d < 16) :
    (pairs ds).flatMap halves = padded ds := by
  fun_induction pairs ds with
  | case1 => rfl
  | case2 high =>
    have hhigh := h high List.mem_cons_self
    exact halves_toUInt8 hhigh (by decide : 0 < 16)
  | case3 high low ds ih =>
    obtain ⟨hhigh, hrest⟩ := List.forall_mem_cons.mp h
    obtain ⟨hlow, hds⟩ := List.forall_mem_cons.mp hrest
    rw [List.flatMap_cons, ih hds, halves_toUInt8 hhigh hlow, padded_cons_cons]
    rfl

/-- What a string denotes are bytes whose halves are its digits. -/
theorem flatMap_halves_contents (inner : List UInt8) :
    (contents inner).flatMap halves = padded (digits inner) := by
  unfold contents
  rw [← digits_eq]
  exact flatMap_halves_pairs fun d hd => lt_of_mem_digits hd

end HexString

/-! ## Reading -/

namespace Reading

open HexString

variable {before rest : List UInt8} {b : UInt8}

/-- A run that may stand in a string goes on up to the first byte that may not. -/
theorem inner_append (hbefore : ∀ x ∈ before, ¬ IsForeign x) (hb : IsForeign b)
    (after : List UInt8) : HexString.inner (before ++ b :: after) = before := by
  have hall : ∀ x ∈ before, isInner x = true := fun x hx => isInner_iff.mpr (hbefore x hx)
  have hstop : ¬ isInner b = true := fun h => isInner_iff.mp h hb
  unfold HexString.inner
  rw [List.takeWhile_append_of_pos hall, List.takeWhile_cons_of_neg hstop, List.append_nil]

theorem hex_foreign (hbefore : ∀ x ∈ before, ¬ IsForeign x) (hb : IsForeign b)
    (hne : b ≠ Byte.ofChar '>') (after : List UInt8) :
    hex (before ++ b :: after) =
      .fault (.notHexDigit b) (before.length + 1) (before.length + 1) := by
  simp only [hex, inner_append hbefore hb, List.drop_left, if_neg hne]

theorem hex_unterminated (hrest : ∀ x ∈ rest, ¬ IsForeign x) :
    hex rest = .fault .unterminatedHex 0 (rest.length + 1) := by
  have hall : ∀ x ∈ rest, isInner x = true := fun x hx => isInner_iff.mpr (hrest x hx)
  have hinner : HexString.inner (rest ++ []) = rest ++ [] := List.takeWhile_append_of_pos hall
  rw [List.append_nil] at hinner
  simp only [hex, hinner, List.drop_length]

end Reading

namespace Lexer

open HexString

variable {l : Lexer} {rest : List UInt8}

theorem reading_hex (hdata : l.dataNext = false)
    (hrest : l.rest.drop l.gap = Byte.ofChar '<' :: rest)
    (hangle : rest.head? ≠ some (Byte.ofChar '<')) : l.reading = Reading.hex rest := by
  rw [reading_plain hdata, hrest, Reading.ofBytes_hex hangle]

/-- **Hex strings** are read up to their first closing bracket, as bytes whose halves are
    the digits of the string. A byte before the bracket that is neither digit nor blank is
    a fault at that byte, the first one if there are several; and if there is no such byte,
    a missing bracket is a fault at the start of the string. -/
theorem next_hex (hdata : l.dataNext = false)
    (hrest : l.rest.drop l.gap = Byte.ofChar '<' :: rest)
    (hangle : rest.head? ≠ some (Byte.ofChar '<')) :
    (∀ before b after, rest = before ++ b :: after → Byte.ofChar '>' ∉ before →
      b ≠ Byte.ofChar '>' → (∀ x ∈ before, ¬ IsForeign x) → IsForeign b →
      ∃ l', l.next = (.error ⟨l.position + l.gap + 1 + before.length, .notHexDigit b⟩, l')) ∧
    (Byte.ofChar '>' ∉ rest → (∀ x ∈ rest, ¬ IsForeign x) →
      ∃ l', l.next = (.error ⟨l.position + l.gap, .unterminatedHex⟩, l')) ∧
    ∀ inner after, rest = inner ++ Byte.ofChar '>' :: after → Byte.ofChar '>' ∉ inner →
      (∀ x ∈ inner, ¬ IsForeign x) →
      ∃ value, value.flatMap halves = padded (digits inner) ∧
        l.next = (.ok ⟨.hex value,
            ⟨l.position + l.gap, l.position + l.gap + 1 + inner.length + 1⟩⟩,
          ⟨after, l.position + l.gap + 1 + inner.length + 1, false⟩) := by
  have hreading := reading_hex hdata hrest hangle
  refine ⟨?_, ?_, ?_⟩
  · rintro before b after rfl - hne hbefore hb
    rw [Reading.hex_foreign hbefore hb hne] at hreading
    obtain ⟨l', hnext⟩ := next_of_fault hreading
    rw [Nat.add_comm before.length 1, ← Nat.add_assoc] at hnext
    exact ⟨l', hnext⟩
  · intro _ hforeign
    rw [Reading.hex_unterminated hforeign] at hreading
    exact next_of_fault hreading
  · rintro inner after rfl - hinner
    refine ⟨contents inner, flatMap_halves_contents inner, ?_⟩
    rw [Reading.hex_eq fun x hx => isInner_iff.mpr (hinner x hx)] at hreading
    have hafter : (l.rest.drop l.gap).drop (inner.length + 2) = after := by
      rw [hrest, List.drop_succ_cons, ← List.drop_drop, List.drop_left]
      rfl
    have hstop : l.position + l.gap + (inner.length + 2) =
        l.position + l.gap + 1 + inner.length + 1 := by omega
    rw [next_of_token hreading, hafter, hstop]
    simp

/-- Three digits with a blank among them; a letter that is no digit, in a string that does
    not end; and a string that does not end. -/
theorem next_hex_odd :
    (∃ value, value.flatMap halves = [4, 8, 15, 0] ∧
      (ofBytes (Byte.ofChars " <4 8\nF> Tj".toList)).next =
        (.ok ⟨.hex value, ⟨1, 8⟩⟩, ⟨Byte.ofChars " Tj".toList, 8, false⟩)) ∧
    (∃ l', (ofBytes (Byte.ofChars "<4zy".toList)).next =
      (.error ⟨2, .notHexDigit (Byte.ofChar 'z')⟩, l')) ∧
    ∃ l', (ofBytes (Byte.ofChars "<48 ".toList)).next = (.error ⟨0, .unterminatedHex⟩, l') := by
  refine ⟨?_, ?_, ?_⟩
  · exact (next_hex rfl rfl (by decide)).2.2 (Byte.ofChars "4 8\nF".toList)
      (Byte.ofChars " Tj".toList) rfl (by decide +kernel) (by decide +kernel)
  · exact (next_hex rfl rfl (by decide)).1 [Byte.ofChar '4'] (Byte.ofChar 'z')
      [Byte.ofChar 'y'] rfl (by decide +kernel) (by decide +kernel) (by decide +kernel)
      (by decide +kernel)
  · exact (next_hex rfl rfl (by decide)).2.1 (by decide +kernel) (by decide +kernel)

end Lexer

end PageContent
