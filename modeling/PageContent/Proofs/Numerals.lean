import PageContent.Proofs.NearestValues
import PageContent.Proofs.Lexing

/-! # The grammar of numbers

    Which words are numbers, and which number each of them is.

    * **Grammar**: a sign that may be missing, then digits, digits around a point, or a
      point with digits after it.
    * **Values** are those of positional notation, with any number of leading zeros.
    * **Tokens**: a word without a point is an integer if 64 bits with a sign can hold its
      value. All other numbers are reals, rounded to the nearest value.

    Main statement: `Lexer.next_numeral`.
-/

namespace PageContent

namespace Numeral

/-! ## Grammar -/

/-- The number that decimal digits stand for. -/
def positional : List UInt8 → Nat
  | [] => 0
  | b :: rest => (b.toNat - 0x30) * 10 ^ rest.length + positional rest

/-- A number without a sign, and its value. -/
inductive IsMagnitude : List UInt8 → ℚ → Prop
  | whole {ws : List UInt8} (hws : ws.all Byte.isDigit = true) (hne : ws ≠ []) :
      IsMagnitude ws (positional ws)
  | point {ws fs : List UInt8} (hws : ws.all Byte.isDigit = true) (hne : ws ≠ [])
      (hfs : fs.all Byte.isDigit = true) :
      IsMagnitude (ws ++ Byte.ofChar '.' :: fs)
        (positional ws + (positional fs : ℚ) / 10 ^ fs.length)
  | fraction {fs : List UInt8} (hfs : fs.all Byte.isDigit = true) (hne : fs ≠ []) :
      IsMagnitude (Byte.ofChar '.' :: fs) ((positional fs : ℚ) / 10 ^ fs.length)

/-- A number is a sign and a magnitude. -/
def IsNumeral (w : List UInt8) (negative : Bool) (m : ℚ) : Prop :=
  ∃ sign u, w = sign ++ u ∧ IsSign sign negative ∧ IsMagnitude u m

def signed (negative : Bool) (m : ℚ) : ℚ :=
  if negative then -m else m

/-- The token of a number: whole numbers without a point are integers if they fit. -/
inductive Denotes (w : List UInt8) (negative : Bool) (m : ℚ) : Lexeme → Prop
  | integer (i : Int64) (hpoint : Byte.ofChar '.' ∉ w) (hlow : -2 ^ 63 ≤ signed negative m)
      (hhigh : signed negative m ≤ 2 ^ 63 - 1) (hvalue : (i.toInt : ℚ) = signed negative m) :
      Denotes w negative m (.integer i)
  | real (x : Binary64)
      (hother : Byte.ofChar '.' ∈ w ∨ signed negative m < -2 ^ 63 ∨
        2 ^ 63 - 1 < signed negative m)
      (hnear : x.IsNearest negative m) : Denotes w negative m (.real x)

variable {w u sign ws fs : List UInt8} {negative : Bool} {m : ℚ}

/-! ## Values -/

theorem value_append (ws fs : List UInt8) :
    value (ws ++ fs) = value ws * 10 ^ fs.length + value fs := by
  unfold value
  rw [List.map_append, Nat.ofDigitChars_append, Nat.ofDigitChars_eq_ofDigitChars_zero,
    List.length_map, Nat.mul_comm]

theorem value_eq_positional (ds : List UInt8) : value ds = positional ds := by
  induction ds with
  | nil => rfl
  | cons b rest ih =>
    have hdigit : value [b] = b.toNat - 0x30 := by
      rw [← Byte.toNat_toChar b]
      exact Nat.zero_add _
    have happend := value_append [b] rest
    rw [hdigit, ih, List.singleton_append] at happend
    exact happend

/-- A decimal with so many places. -/
theorem isNearest_places (negative : Bool) (n places : Nat) :
    (Binary64.ofDecimal negative ⟨n, -(places : Int)⟩).IsNearest negative
      ((n : ℚ) / 10 ^ places) := by
  have hnearest := (Binary64.isNearest_ofDecimal negative ⟨n, -(places : Int)⟩).mpr rfl
  have hnumerator : Decimal.numerator ⟨n, -(places : Int)⟩ = n := by
    have hwhole : (-(places : Int)).toNat = 0 := by omega
    rw [Decimal.numerator, hwhole, Nat.pow_zero, Nat.mul_one]
  have hdenominator : Decimal.denominator ⟨n, -(places : Int)⟩ = 10 ^ places := by
    rw [Decimal.denominator, Int.neg_neg, Int.toNat_natCast]
  rw [hnumerator, hdenominator] at hnearest
  exact_mod_cast hnearest

/-- The digits on both sides of a point, and the places that those behind it take. -/
theorem value_places (ws fs : List UInt8) :
    (value (ws ++ fs) : ℚ) / 10 ^ fs.length =
      positional ws + (positional fs : ℚ) / 10 ^ fs.length := by
  have hpow : (10 : ℚ) ^ fs.length ≠ 0 := pow_ne_zero _ (by decide)
  rw [value_append, value_eq_positional, value_eq_positional]
  push_cast
  field_simp

/-! ## Integers -/

theorem signed_natCast (negative : Bool) (n : Nat) :
    signed negative n = ((if negative then -(n : Int) else n : Int) : ℚ) := by
  unfold signed
  split <;> push_cast <;> rfl

theorem int64?_eq_some {n : Nat} {i : Int64} (h : int64? negative n = some i) :
    -2 ^ 63 ≤ signed negative n ∧ signed negative n ≤ 2 ^ 63 - 1 ∧
      (i.toInt : ℚ) = signed negative n := by
  have hlow : -2 ^ 63 ≤ i.toInt := i.minValue_le_toInt
  have hhigh : i.toInt ≤ 2 ^ 63 - 1 := Int.le_sub_one_of_lt i.toInt_lt
  rw [signed_natCast, ← toInt_of_int64? h]
  exact ⟨by exact_mod_cast hlow, by exact_mod_cast hhigh, rfl⟩

theorem int64?_eq_none {n : Nat} (h : int64? negative n = none) :
    signed negative n < -2 ^ 63 ∨ 2 ^ 63 - 1 < signed negative n := by
  rw [signed_natCast]
  unfold int64? at h
  simp only at h
  generalize (if negative then -(n : Int) else n : Int) = v at h ⊢
  split at h
  · exact absurd h (by simp)
  · next hfits =>
    have hout : v < -2 ^ 63 ∨ 2 ^ 63 - 1 < v := by omega
    rcases hout with hout | hout
    · exact .inl (by exact_mod_cast hout)
    · exact .inr (by exact_mod_cast hout)

/-! ## Words that are numbers -/

theorem not_point_mem (hsign : IsSign sign negative) (hws : ws.all Byte.isDigit = true) :
    Byte.ofChar '.' ∉ sign ++ ws := by
  intro h
  rcases List.mem_append.mp h with h | h
  · revert h
    cases hsign <;> decide
  · exact absurd (List.all_eq_true.mp hws _ h) (by decide)

/-- A magnitude starts with a digit or a point, so that a sign before it is taken off. -/
theorem splitSign_append (hsign : IsSign sign negative) (hu : IsMagnitude u m) :
    splitSign (sign ++ u) = (negative, u) := by
  have hdigits {ws : List UInt8} (hws : ws.all Byte.isDigit = true) (hne : ws ≠ [])
      (rest : List UInt8) : splitSign (sign ++ (ws ++ rest)) = (negative, ws ++ rest) := by
    match ws with
    | b :: ws =>
      exact splitSign_of_isSign hsign (.inr (List.all_eq_true.mp hws b List.mem_cons_self)) _
  cases hu with
  | whole hws hne => simpa using hdigits hws hne []
  | point hws hne hfs => exact hdigits hws hne _
  | fraction hfs hne => exact splitSign_of_isSign hsign (.inl rfl) _

/-- A word of the grammar is a token with its value. -/
theorem parse?_of_isNumeral (h : IsNumeral w negative m) :
    ∃ lexeme, parse? w = some lexeme ∧ Denotes w negative m lexeme := by
  obtain ⟨sign, u, rfl, hsign, hu⟩ := h
  have hsplit := splitSign_append hsign hu
  cases hu with
  | whole hws hne =>
    refine ⟨_, parse?_of_whole hsplit hws hne, ?_⟩
    rw [← value_eq_positional]
    cases hfits : int64? negative (value u) with
    | some i =>
      obtain ⟨hlow, hhigh, hvalue⟩ := int64?_eq_some hfits
      exact .integer i (not_point_mem hsign hws) hlow hhigh hvalue
    | none =>
      have hnearest := isNearest_places negative (value u) 0
      rw [pow_zero, div_one] at hnearest
      exact .real _ (.inr (int64?_eq_none hfits)) hnearest
  | @point ws fs hws hne hfs =>
    have hnearest := isNearest_places negative (value (ws ++ fs)) fs.length
    rw [value_places] at hnearest
    exact ⟨_, parse?_of_point hsplit hws hfs (by simp [hne]), .real _ (.inl (by simp)) hnearest⟩
  | @fraction fs hfs hne =>
    -- there are no digits before the point
    have hnearest := isNearest_places negative (value ([] ++ fs)) fs.length
    rw [value_places, positional, Nat.cast_zero, zero_add] at hnearest
    have hunsigned : splitSign (sign ++ Byte.ofChar '.' :: fs) =
        (negative, [] ++ Byte.ofChar '.' :: fs) := hsplit
    exact ⟨_, parse?_of_point hunsigned rfl hfs hne, .real _ (.inl (by simp)) hnearest⟩

/-- Every word that is read as a number is one of the grammar. -/
theorem isNumeral_of_parse? {lexeme : Lexeme} (h : parse? w = some lexeme) :
    ∃ negative m, IsNumeral w negative m := by
  obtain ⟨sign, negative, ws, hsign, hws, hword⟩ := exists_of_parse?_eq_some h
  rcases hword with ⟨hword, hne⟩ | ⟨fs, hword, hfs, hne⟩
  · exact ⟨negative, _, sign, _, hword, hsign, .whole hws hne⟩
  · by_cases hnil : ws = []
    · subst hnil
      exact ⟨negative, _, sign, _, hword, hsign, .fraction hfs hne⟩
    · exact ⟨negative, _, sign, _, hword, hsign, .point hws hnil hfs⟩

end Numeral

namespace Lexer

/-- **Numbers** are read by their grammar. Where a sign, a point or a digit starts a token,
    all regular bytes from there on belong to it. They are a number of the grammar, with
    its value, or the fault lies where they start. -/
theorem next_numeral {l : Lexer} {b : UInt8} {rest : List UInt8} (hdata : l.dataNext = false)
    (hrest : l.rest.drop l.gap = b :: rest) (hlead : Numeral.isLead b = true) :
    let w := (b :: rest).takeWhile Byte.isRegular
    (∀ negative m, Numeral.IsNumeral w negative m →
      ∃ lexeme, Numeral.Denotes w negative m lexeme ∧
        l.next = (.ok ⟨lexeme, ⟨l.position + l.gap, l.position + l.gap + w.length⟩⟩,
          ⟨(b :: rest).drop w.length, l.position + l.gap + w.length, false⟩)) ∧
    ((∀ negative m, ¬ Numeral.IsNumeral w negative m) →
      ∃ l', l.next = (.error ⟨l.position + l.gap, .malformedNumber (Utf8.decode w)⟩, l')) := by
  intro w
  have hreading : l.reading = Reading.numeral (b :: rest) := by
    rw [reading_plain hdata, hrest, Reading.ofBytes_numeral hlead]
  have hword : Reading.word (b :: rest) = w := rfl
  unfold Reading.numeral at hreading
  rw [hword] at hreading
  constructor
  · intro negative m hnumeral
    obtain ⟨lexeme, hparse, hdenotes⟩ := Numeral.parse?_of_isNumeral hnumeral
    rw [hparse] at hreading
    refine ⟨lexeme, hdenotes, ?_⟩
    have hkeyword : lexeme ≠ .operator "ID" := by
      rintro rfl
      cases hdenotes
    rw [next_of_token hreading, hrest, hdata, decide_eq_false hkeyword]
    rfl
  · intro hnone
    cases hparse : Numeral.parse? w with
    | some lexeme =>
      obtain ⟨negative, m, hnumeral⟩ := Numeral.isNumeral_of_parse? hparse
      exact absurd hnumeral (hnone negative m)
    | none =>
      rw [hparse] at hreading
      exact next_of_fault hreading

/-- The least integer, with leading zeros; the number after the greatest one; and a word
    with two points. -/
theorem next_numeral_limits :
    (∃ lexeme, Numeral.Denotes (Byte.ofChars "-0009223372036854775808".toList) true
        9223372036854775808 lexeme ∧
      (ofBytes (Byte.ofChars " -0009223372036854775808 Tj".toList)).next =
        (.ok ⟨lexeme, ⟨1, 24⟩⟩, ⟨Byte.ofChars " Tj".toList, 24, false⟩)) ∧
    (∃ lexeme, Numeral.Denotes (Byte.ofChars "9223372036854775808".toList) false
        9223372036854775808 lexeme ∧
      (ofBytes (Byte.ofChars "9223372036854775808]".toList)).next =
        (.ok ⟨lexeme, ⟨0, 19⟩⟩, ⟨Byte.ofChars "]".toList, 19, false⟩)) ∧
    ∃ l', (ofBytes (Byte.ofChars "+1.2.3 w".toList)).next =
      (.error ⟨0, .malformedNumber (Utf8.decode (Byte.ofChars "+1.2.3".toList))⟩, l') := by
  have hwhole {ws : List UInt8} (hws : ws.all Byte.isDigit = true) (hne : ws ≠ [])
      (hvalue : Numeral.positional ws = 9223372036854775808) :
      Numeral.IsMagnitude ws 9223372036854775808 := by
    have hmagnitude := Numeral.IsMagnitude.whole hws hne
    rw [hvalue] at hmagnitude
    exact_mod_cast hmagnitude
  have hwhole {sign : List UInt8} {negative : Bool} (hsign : Numeral.IsSign sign negative)
      (ws : List UInt8) (hws : ws.all Byte.isDigit = true ∧ ws ≠ [])
      (hvalue : Numeral.positional ws = 9223372036854775808) :
      Numeral.IsNumeral (sign ++ ws) negative 9223372036854775808 := by
    have hmagnitude := Numeral.IsMagnitude.whole hws.1 hws.2
    rw [hvalue] at hmagnitude
    exact ⟨sign, ws, rfl, hsign, by exact_mod_cast hmagnitude⟩
  refine ⟨?_, ?_, ?_⟩
  · have hleast := hwhole .minus (Byte.ofChars "0009223372036854775808".toList) (by decide)
      (by decide +kernel)
    exact (next_numeral (l := ofBytes (Byte.ofChars " -0009223372036854775808 Tj".toList))
      (b := Byte.ofChar '-') rfl rfl (by decide)).1 true _ hleast
  · have hbeyond := hwhole .missing (Byte.ofChars "9223372036854775808".toList) (by decide)
      (by decide +kernel)
    exact (next_numeral (l := ofBytes (Byte.ofChars "9223372036854775808]".toList))
      (b := Byte.ofChar '9') rfl rfl (by decide)).1 false _ hbeyond
  · refine (next_numeral (l := ofBytes (Byte.ofChars "+1.2.3 w".toList)) (b := Byte.ofChar '+')
      rfl rfl (by decide)).2 fun negative m h => ?_
    obtain ⟨lexeme, hparse, -⟩ := Numeral.parse?_of_isNumeral h
    have hnone : Numeral.parse? (Byte.ofChars "+1.2.3".toList) = none := by decide +kernel
    exact absurd (hnone.symm.trans hparse) (by simp)

end Lexer

end PageContent
