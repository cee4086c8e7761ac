import PageContent.Proofs.EscapedTexts
import PageContent.Proofs.Placement
import Mathlib.Data.List.Forall2

/-! # Arguments, to the lexer

    An argument that a builder writes is read as an operand that says the same.

    * **Numbers** are whole or decimal texts, and each is read as a number with the value
      that was written. It may be an integer or a real; a zero has lost its sign.
    * **Names** without anything to escape are written as names are.
    * **Arrays** have their numbers between brackets, with a space between two of them.
-/

namespace PageContent

namespace Binary64

variable {x : Binary64} {negative : Bool} {rank : Nat}

/-- The value, a zero without its sign. -/
def withoutZeroSign (x : Binary64) : Binary64 :=
  if x = ofRank true 0 then ofRank false 0 else x

theorem withoutZeroSign_zero (negative : Bool) :
    (ofRank negative 0).withoutZeroSign = ofRank false 0 := by
  cases negative <;> decide

theorem withoutZeroSign_of_pos (hpos : 0 < rank) (h : rank < Magnitude.infinity) :
    (ofRank negative rank).withoutZeroSign = ofRank negative rank := by
  apply if_neg
  rw [ofRank_of_lt h, ofRank_of_lt (by decide)]
  intro heq
  have hrank := Fin.mk.inj (number.inj heq).2
  omega

end Binary64

namespace Numeral

open Binary64

/-! ## Numbers -/

/-- The characters are read as a number, whose value is `v`. -/
structure Spells (cs : List Char) (v : Binary64) : Prop where
  ascii : ∀ c ∈ cs, c.toNat < 0x80
  reads : ∃ (x : Operand) (lexeme : Lexeme), x.lexemes = [lexeme] ∧
    parse? (Byte.ofChars cs) = some lexeme ∧ x.number? = some v

variable {negative : Bool} {rank n : Nat} {cs : List Char}

theorem ascii_of_areDigits (h : AreDigits cs) : ∀ c ∈ cs, c.toNat < 0x80 := by
  intro c hc
  have := (toNat_of_isDigit (h c hc)).2
  omega

theorem ascii_sign_append (h : ∀ c ∈ cs, c.toNat < 0x80) :
    ∀ c ∈ (if negative then ['-'] else []) ++ cs, c.toNat < 0x80 := by
  intro c hc
  rcases List.mem_append.mp hc with hc | hc
  · cases negative
    · exact absurd hc List.not_mem_nil
    · rw [List.mem_singleton.mp hc]
      decide
  · exact h c hc

/-- A whole number is read as the value nearest to it, whether it fits into an integer or
    not. Only an integer that is not zero keeps its sign. -/
theorem spells_whole (h : Magnitude.nearest (n * Magnitude.one) 1 = rank)
    (hsign : n ≠ 0 ∨ negative = false) :
    Spells ((if negative then ['-'] else []) ++ Nat.toDigits 10 n) (ofRank negative rank) := by
  have hdigits := areDigits_toDigits n
  refine ⟨ascii_sign_append (ascii_of_areDigits hdigits), ?_⟩
  have hsplit := splitSign_digits negative hdigits Nat.toDigits_ne_nil []
  have hne : Byte.ofChars (Nat.toDigits 10 n) ≠ [] := by
    simp [Byte.ofChars, Nat.toDigits_ne_nil]
  rw [List.append_nil, ← Byte.ofChars_append] at hsplit
  have hparse := parse?_of_whole hsplit (all_isDigit hdigits) hne
  rw [value_ofChars hdigits, Nat.ofDigitChars_ten_toDigits] at hparse
  rw [hparse]
  cases hfits : int64? negative n with
  | none =>
    have hvalue : ofDecimal negative ⟨n, 0⟩ = ofRank negative rank :=
      ofDecimal_eq (by simpa [Decimal.numerator, Decimal.denominator] using h) negative
    exact ⟨.real _, _, rfl, rfl, congrArg some hvalue⟩
  | some i =>
    -- the value of the integer is rounded in the same way
    have hvalue : ofInt i.toInt = ofRank negative rank := by
      have hnegative : decide (i.toInt < 0) = negative := by
        rw [toInt_of_int64? hfits]
        cases negative with
        | false => simp
        | true =>
          have hpos := hsign.resolve_right (by simp)
          simp only [if_true, decide_eq_true_eq]
          omega
      have habs : i.toInt.natAbs = n := by
        rw [toInt_of_int64? hfits]
        split <;> omega
      rw [ofInt, ofRatio, hnegative, habs, h]
    exact ⟨.integer i, _, rfl, rfl, congrArg some hvalue⟩

/-- A decimal is read as the value that it rounds to. -/
theorem spells_decimal {d : Decimal}
    (h : Magnitude.nearest (d.numerator * Magnitude.one) d.denominator = rank)
    (hpos : 0 < rank) :
    Spells ((if negative then ['-'] else []) ++ d.chars) (ofRank negative rank) := by
  by_cases hneg : d.exponent < 0
  · refine ⟨ascii_sign_append ?_, .real _, _, rfl, parse?_decimal h hneg, rfl⟩
    rw [Decimal.chars_of_neg hneg]
    intro c hc
    rcases List.mem_append.mp hc with hc | hc
    · exact ascii_of_areDigits (areDigits_toDigits _) c hc
    rcases List.mem_cons.mp hc with rfl | hc
    · decide
    · exact ascii_of_areDigits (areDigits_leftpad _ (areDigits_toDigits _)) c hc
  · -- without places the decimal is a whole number
    have hplaces : (-d.exponent).toNat = 0 := by omega
    have hdenominator : d.denominator = 1 := by
      rw [Decimal.denominator, hplaces, Nat.pow_zero]
    have hchars : d.chars = Nat.toDigits 10 d.numerator := by
      unfold Decimal.chars
      simp only [hplaces, if_true, hdenominator, Nat.div_one]
    rw [hdenominator] at h
    have hne : d.numerator ≠ 0 := by
      intro hzero
      rw [hzero, Nat.zero_mul] at h
      have hnearest : Magnitude.nearest 0 1 = 0 := by decide
      omega
    rw [hchars]
    exact spells_whole h (.inl hne)

end Numeral

namespace Argument

open Binary64 Numeral

/-- **Numbers** are written so that their values are read. -/
theorem exists_spells_numberText {x : Binary64} (hx : x.IsFinite) :
    ∃ cs, numberText x = String.ofList cs ∧ Spells cs x.withoutZeroSign := by
  obtain ⟨negative, rank, h, rfl⟩ := hx
  have hexact := Magnitude.nearest_units_mul rank Nat.one_pos
  rw [Nat.mul_one] at hexact
  have hunits : (ofRank negative rank).units? = some (Magnitude.units rank) := by
    rw [ofRank_of_lt h]
    exact if_pos h
  have hsign : (ofRank negative rank).sign = if negative then ['-'] else [] := rfl
  have hunits₀ : Magnitude.units 0 = 0 := Magnitude.units_of_lt (by decide)
  unfold numberText
  simp only [hunits]
  split
  · next hwhole =>
    have hdiv := Nat.div_mul_cancel (Nat.dvd_of_mod_eq_zero hwhole.1)
    by_cases hzero : Magnitude.units rank = 0
    · -- both zeros are written alike
      have hrank : rank = 0 := by
        rw [← hexact, hzero]
        decide
      subst hrank
      rw [if_pos hzero, hzero, Nat.zero_div, withoutZeroSign_zero]
      exact ⟨_, rfl, @spells_whole false 0 0 (by rw [Nat.zero_mul]; decide) (.inr rfl)⟩
    · have hne : Magnitude.units rank / Magnitude.one ≠ 0 := by
        intro hquotient
        rw [hquotient, Nat.zero_mul] at hdiv
        exact hzero hdiv.symm
      have hpos : 0 < rank := by
        apply Nat.pos_of_ne_zero
        rintro rfl
        exact hzero hunits₀
      rw [if_neg hzero, hsign, withoutZeroSign_of_pos hpos h]
      exact ⟨_, rfl, spells_whole (by rw [hdiv, hexact]) (.inl hne)⟩
  · next hother =>
    have hpos : 0 < rank := by
      apply Nat.pos_of_ne_zero
      rintro rfl
      rw [hunits₀, Nat.zero_mod, Nat.zero_div] at hother
      exact hother ⟨rfl, by decide⟩
    have hchars : (ofRank negative rank).chars =
        (if negative then ['-'] else []) ++ (Shortest.ofRank .up rank).chars := by
      rw [ofRank_of_lt h]
      unfold chars shortest?
      simp only [if_pos h, if_neg (Nat.pos_iff_ne_zero.mp hpos)]
      rfl
    rw [withoutZeroSign_of_pos hpos h, Binary64.text, hchars]
    exact ⟨_, rfl, spells_decimal (Shortest.nearest_ofRank .up rank) hpos⟩

/-- An argument that is read as what it says: its numbers are finite, and there is nothing
    to escape in its name. What is written already can be anything. -/
def isReadable : Argument → Bool
  | number x => decide x.IsFinite
  | numbers xs => xs.all fun x => decide x.IsFinite
  | name n => n.toList.all fun c => decide (c.toNat < 0x80) && Name.isPlain (Byte.ofChar c)
  | literal _ => true
  | raw _ => false

/-- The operand says what the argument does. Whether a number is an integer or a real is
    left open. -/
inductive ReadsAs : Argument → Operand → Prop where
  | number {x : Binary64} {y : Operand} (h : y.number? = some x.withoutZeroSign) :
      ReadsAs (number x) y
  | numbers {xs : List Binary64} {ys : List Operand}
      (h : List.Forall₂ (fun x y => y.number? = some x.withoutZeroSign) xs ys) :
      ReadsAs (numbers xs) (.array ys)
  | name (n : String) : ReadsAs (name n) (.name n)
  | literal (text : String) :
      ReadsAs (literal text) (.string .literal (Utf8.encode (withLineFeeds text)))

open Lexer

theorem exists_yields_number {x : Binary64} (hx : x.IsFinite) :
    ∃ y : Operand, y.number? = some x.withoutZeroSign ∧
      ∀ r, WordEnds r → Yields (Utf8.encode (numberText x)) y.lexemes r := by
  obtain ⟨cs, htext, hspells⟩ := exists_spells_numberText hx
  obtain ⟨y, lexeme, hlexemes, hparse, hvalue⟩ := hspells.reads
  refine ⟨y, hvalue, ?_⟩
  intro r hr
  have hends := y.not_endsOperands lexeme (hlexemes ▸ List.mem_cons_self)
  rw [htext, Utf8.encode_ofList hspells.ascii, hlexemes]
  apply yields_spelled (Reading.spells_number hparse) hr
  · rintro rfl
    exact absurd hends (by decide)
  · rintro rfl
    exact absurd hends (by decide)

/-- The numbers of an array have a space between them. -/
theorem exists_yields_numbers : ∀ xs : List Binary64, (∀ x ∈ xs, x.IsFinite) →
    ∃ ys : List Operand, List.Forall₂ (fun x y => y.number? = some x.withoutZeroSign) xs ys ∧
      ∀ r, WordEnds r → Yields (Utf8.encode (String.intercalate " " (xs.map numberText)))
        (Operand.lexemesOfItems ys) r
  | [], _ => ⟨[], .nil, fun r _ => yields_nil r⟩
  | [x], h => by
    obtain ⟨y, hy, hyields⟩ := exists_yields_number (h x List.mem_cons_self)
    refine ⟨[y], .cons hy .nil, ?_⟩
    intro r hr
    rw [Operand.lexemesOfItems, Operand.lexemesOfItems, List.append_nil]
    exact hyields r hr
  | x :: x' :: xs, h => by
    obtain ⟨y, hy, hyields⟩ := exists_yields_number (h x List.mem_cons_self)
    obtain ⟨ys, hys, hrest⟩ :=
      exists_yields_numbers (x' :: xs) fun z hz => h z (List.mem_cons_of_mem x hz)
    refine ⟨y :: ys, .cons hy hys, ?_⟩
    intro r hr
    have hne : Operand.lexemesOfItems ys ≠ [] := by
      cases hys with
      | cons hy' hys' => exact fun hnil => Operand.lexemes_ne_nil _ (List.append_eq_nil_iff.mp hnil).1
    have htext : String.intercalate " " ((x :: x' :: xs).map numberText) =
        numberText x ++ " " ++ String.intercalate " " ((x' :: xs).map numberText) :=
      String.intercalate_cons_of_ne_nil (List.cons_ne_nil _ _)
    rw [htext, Utf8.encode_append, Utf8.encode_append, List.append_assoc]
    exact Yields.spaced hyields (hrest r hr) hne

/-- A name without anything to escape is written as names are. -/
theorem encode_name {n : String} (h : isReadable (name n) = true) :
    Utf8.encode (name n).text = Name.write n := by
  have hplain : ∀ c ∈ n.toList, c.toNat < 0x80 ∧ Name.isPlain (Byte.ofChar c) = true := by
    intro c hc
    obtain ⟨hascii, hplain⟩ := Bool.and_eq_true_iff.mp (List.all_eq_true.mp h c hc)
    exact ⟨of_decide_eq_true hascii, hplain⟩
  have hbytes : Utf8.encode n = Byte.ofChars n.toList := by
    have hencode := Utf8.encode_ofList fun c hc => (hplain c hc).1
    rwa [String.ofList_toList] at hencode
  have hescape : ∀ b ∈ Byte.ofChars n.toList, Name.escape b = [b] := by
    intro b hb
    obtain ⟨c, hc, rfl⟩ := List.mem_map.mp hb
    exact if_pos (hplain c hc).2
  have hslash : Utf8.encode "/" = [Byte.ofChar '/'] := by decide +kernel
  rw [text, Utf8.encode_append, hslash, Name.write, hbytes, List.flatMap_def,
    List.map_congr_left hescape, ← List.flatMap_def, List.flatMap_singleton']
  rfl

/-- **Arguments** are read as operands that say the same. -/
theorem exists_yields {a : Argument} (h : a.isReadable = true) :
    ∃ y, ReadsAs a y ∧ ∀ r, WordEnds r → Yields (Utf8.encode a.text) y.lexemes r := by
  cases a with
  | number x =>
    obtain ⟨y, hy, hyields⟩ := exists_yields_number (of_decide_eq_true h)
    exact ⟨y, .number hy, hyields⟩
  | numbers xs =>
    have hfinite : ∀ x ∈ xs, x.IsFinite :=
      fun x hx => of_decide_eq_true (List.all_eq_true.mp h x hx)
    obtain ⟨ys, hys, hyields⟩ := exists_yields_numbers xs hfinite
    refine ⟨.array ys, .numbers hys, ?_⟩
    intro r hr
    have hopen : Utf8.encode "[" = [Byte.ofChar '['] := by decide +kernel
    have hclose : Utf8.encode "]" = [Byte.ofChar ']'] := by decide +kernel
    rw [text, Utf8.encode_append, Utf8.encode_append, hopen, hclose, List.append_assoc]
    have hlast : Yields [Byte.ofChar ']'] [.arrayClose] r :=
      yields_token (Reading.ofBytes_arrayClose _) (by simp) (by simp)
    have hfirst : ∀ c, Yields [Byte.ofChar '['] [.arrayOpen] c :=
      fun c => yields_token (Reading.ofBytes_arrayOpen _) (by simp) (by simp)
    exact (hfirst _).append ((hyields _ (wordEnds_bracket r)).append hlast)
  | name n =>
    refine ⟨.name n, .name n, ?_⟩
    intro r hr
    rw [encode_name h]
    exact yields_spelled (Reading.spells_name n) hr (by simp) (by simp)
  | literal s =>
    refine ⟨_, .literal s, ?_⟩
    intro r hr
    exact yields_spelled (spells_literalText s) hr (by simp) (by simp)
  | raw s => exact absurd h Bool.false_ne_true

end Argument

end PageContent
