import PageContent.Token.Numeral
import PageContent.Operand.Write

/-! # Numbers, there and back

    A number that is written is read as the same number.

    * **Magnitudes**: the nearest magnitude to a magnitude is itself, and the
      nearest one to a whole number is whole.
    * **Decimals**: the digits of the shortest decimal round to the magnitude that
      it was made of. If the magnitude is not whole, there are places behind the
      point.
    * **Numerals**: what is made of the characters of a decimal, and that all of
      them may stand at the start of a numeral.
-/

namespace PageContent

/-! ## Magnitudes -/

namespace Magnitude

/-- Below this rank magnitudes are a unit apart, and a rank is its magnitude. -/
theorem units_of_lt {rank : Nat} (h : rank < 2 ^ 53) : units rank = rank := by
  have hscale : scale rank = 0 := by
    unfold scale
    omega
  simp [units, hscale]

/-- A significand with 53 bits, and the place of its last bit. -/
theorem units_add {s m : Nat} (hlow : 2 ^ 52 ≤ m) (hhigh : m < 2 ^ 53) :
    units (s * 2 ^ 52 + m) = m * 2 ^ s := by
  have hscale : scale (s * 2 ^ 52 + m) = s := by
    unfold scale
    omega
  unfold units
  rw [hscale, Nat.add_sub_cancel_left]

/-- Every rank is below the first 53 bits, or has a significand of 53 bits. -/
theorem exists_significand {rank : Nat} (h : 2 ^ 53 ≤ rank) :
    ∃ s m, 0 < s ∧ 2 ^ 52 ≤ m ∧ m < 2 ^ 53 ∧ rank = s * 2 ^ 52 + m := by
  refine ⟨rank / 2 ^ 52 - 1, rank - (rank / 2 ^ 52 - 1) * 2 ^ 52, ?_, ?_, ?_, ?_⟩ <;> omega

theorem log2_significand {s m : Nat} (hlow : 2 ^ 52 ≤ m) (hhigh : m < 2 ^ 53) :
    (m * 2 ^ s).log2 = 52 + s := by
  have hpos : 0 < 2 ^ s := Nat.pow_pos (by decide)
  have hne : m * 2 ^ s ≠ 0 := by
    apply Nat.mul_ne_zero <;> omega
  rw [Nat.log2_eq_iff hne]
  constructor
  · rw [Nat.pow_add]
    exact Nat.mul_le_mul_right _ hlow
  · have hsucc : 52 + s + 1 = 53 + s := by omega
    rw [hsucc, Nat.pow_add]
    exact (Nat.mul_lt_mul_right hpos).mpr hhigh

theorem log2_sub_of_lt {n : Nat} (h : n < 2 ^ 53) : n.log2 - 52 = 0 := by
  by_cases hn : n = 0
  · subst hn
    decide
  · have := (Nat.log2_lt hn).mpr h
    omega

/-- **Exact magnitudes** are kept by rounding. -/
theorem nearest_units_mul (rank : Nat) {q : Nat} (hq : 0 < q) :
    nearest (units rank * q) q = rank := by
  unfold nearest
  rw [Nat.mul_div_cancel _ hq]
  by_cases hrank : rank < 2 ^ 53
  · rw [units_of_lt hrank, log2_sub_of_lt hrank]
    simp only [Nat.zero_mul, Nat.pow_zero, Nat.mul_one, Nat.zero_add]
    exact Decimal.roundDiv_mul_self rank hq
  · -- with 53 significant bits nothing is rounded away
    obtain ⟨s, m, -, hlow, hhigh, rfl⟩ := exists_significand (Nat.le_of_not_lt hrank)
    rw [units_add hlow hhigh, log2_significand hlow hhigh, Nat.add_sub_cancel_left]
    have hfactor : m * 2 ^ s * q = m * (q * 2 ^ s) := by
      rw [Nat.mul_assoc, Nat.mul_comm (2 ^ s)]
    have hpos : 0 < q * 2 ^ s := Nat.mul_pos hq (Nat.pow_pos (by decide))
    simp only [hfactor, Decimal.roundDiv_mul_self m hpos]

/-! ## Whole numbers -/

/-- A number whose last bits are zero has a magnitude of its own. -/
theorem units_nearest_of_dvd {p : Nat} (h : 2 ^ (p.log2 - 52) ∣ p) : units (nearest p 1) = p := by
  unfold nearest
  rw [Nat.div_one]
  by_cases hp : p < 2 ^ 53
  · rw [log2_sub_of_lt hp]
    have hround := Decimal.roundDiv_mul_self p Nat.one_pos
    simp only [Nat.mul_one] at hround
    simp only [Nat.zero_mul, Nat.pow_zero, Nat.mul_one, Nat.zero_add, hround]
    exact units_of_lt hp
  · have hne : p ≠ 0 := by omega
    have hlog : 53 ≤ p.log2 := (Nat.le_log2 hne).mpr (by omega)
    obtain ⟨hlow, hhigh⟩ := (Nat.log2_eq_iff hne).mp rfl
    -- the last bit of the significand is worth 2 ^ s, and divides the number
    obtain ⟨s, hs⟩ : ∃ s, p.log2 = 52 + s := ⟨p.log2 - 52, by omega⟩
    rw [hs, Nat.add_sub_cancel_left] at h
    have hpos : 0 < 2 ^ s := Nat.pow_pos (by decide)
    obtain ⟨m, hm⟩ := h
    rw [Nat.mul_comm] at hm
    have hlow' : 2 ^ 52 ≤ m := by
      rw [hs, Nat.pow_add, hm] at hlow
      exact Nat.le_of_mul_le_mul_right hlow hpos
    have hhigh' : m < 2 ^ 53 := by
      have hsucc : 52 + s + 1 = 53 + s := by omega
      rw [hs, hsucc, Nat.pow_add, hm] at hhigh
      exact Nat.lt_of_mul_lt_mul_right hhigh
    rw [hs, Nat.add_sub_cancel_left]
    simp only [Nat.one_mul, hm, Decimal.roundDiv_mul_self m hpos]
    exact units_add hlow' hhigh'

/-- Rounding does not make the last bit worth less. -/
theorem le_scale_nearest (p : Nat) : p.log2 - 52 ≤ scale (nearest p 1) := by
  by_cases hp : p < 2 ^ 53
  · rw [log2_sub_of_lt hp]
    exact Nat.zero_le _
  · have hne : p ≠ 0 := by omega
    have hlog : 53 ≤ p.log2 := (Nat.le_log2 hne).mpr (by omega)
    obtain ⟨hlow, -⟩ := (Nat.log2_eq_iff hne).mp rfl
    obtain ⟨s, hs⟩ : ∃ s, p.log2 = 52 + s := ⟨p.log2 - 52, by omega⟩
    rw [hs, Nat.pow_add] at hlow
    have hdiv : 2 ^ 52 ≤ p / 2 ^ s := (Nat.le_div_iff_mul_le (Nat.pow_pos (by decide))).mpr hlow
    -- rounding goes to a neighbour, so the significand keeps its length
    have hround : 2 ^ 52 ≤ Decimal.roundDiv p (1 * 2 ^ s) := by
      rw [Nat.one_mul]
      rcases Decimal.roundDiv_eq_or p (2 ^ s) with h | h
      · rw [h]
        exact hdiv
      · rw [h]
        omega
    unfold nearest scale
    simp only [Nat.div_one, hs, Nat.add_sub_cancel_left]
    generalize Decimal.roundDiv p (1 * 2 ^ s) = m at hround
    omega

/-- **Whole numbers** are rounded to whole numbers. -/
theorem one_dvd_units_nearest (n : Nat) : one ∣ units (nearest (n * one) 1) := by
  unfold one
  by_cases hs : (n * 2 ^ precision).log2 - 52 ≤ precision
  · have hdvd : 2 ^ ((n * 2 ^ precision).log2 - 52) ∣ n * 2 ^ precision :=
      Nat.dvd_trans (Nat.pow_dvd_pow 2 hs) (Nat.dvd_mul_left _ _)
    rw [units_nearest_of_dvd hdvd]
    exact Nat.dvd_mul_left _ _
  · -- past the units every magnitude is a multiple of one
    have hscale := le_scale_nearest (n * 2 ^ precision)
    unfold units
    apply Nat.dvd_mul_left_of_dvd
    exact Nat.pow_dvd_pow 2 (by omega)

end Magnitude

/-! ## Decimals -/

namespace Shortest

/-- The exact expansion of a magnitude rounds to it. -/
theorem roundsTo_expansion (rank : Nat) : roundsTo rank (expansion rank) = true := by
  have hplaces : (-(-(Magnitude.precision : Int))).toNat = Magnitude.precision := by omega
  have hwhole : (-(Magnitude.precision : Int)).toNat = 0 := by omega
  have hvalue : (expansion rank).numerator * Magnitude.one =
      Magnitude.units rank * 10 ^ Magnitude.precision := by
    unfold expansion Decimal.numerator Magnitude.one
    simp only [hwhole, Nat.pow_zero, Nat.mul_one]
    rw [Nat.mul_assoc, ← Nat.mul_pow]
  have hdenominator : (expansion rank).denominator = 10 ^ Magnitude.precision := by
    unfold expansion Decimal.denominator
    simp only [hplaces]
  unfold roundsTo
  rw [hvalue, hdenominator,
    Magnitude.nearest_units_mul rank (Nat.pow_pos (by decide)), beq_self_eq_true]

/-- **The shortest decimal** rounds to the magnitude that it is made of. -/
theorem nearest_ofRank (halfway : Halfway) (rank : Nat) :
    Magnitude.nearest ((ofRank halfway rank).numerator * Magnitude.one)
      (ofRank halfway rank).denominator = rank :=
  beq_iff_eq.mp (roundsTo_ofRank halfway rank (roundsTo_expansion rank))

/-- Magnitudes that are not whole have places behind the point. -/
theorem exponent_neg_of_not_whole {d : Decimal} {rank : Nat}
    (h : Magnitude.nearest (d.numerator * Magnitude.one) d.denominator = rank)
    (hrank : Magnitude.units rank % Magnitude.one ≠ 0) : d.exponent < 0 := by
  by_cases hneg : d.exponent < 0
  · exact hneg
  · -- without places the decimal is a whole number, and so is what it rounds to
    have hplaces : (-d.exponent).toNat = 0 := by omega
    have hdenominator : d.denominator = 1 := by
      unfold Decimal.denominator
      rw [hplaces, Nat.pow_zero]
    rw [hdenominator] at h
    have hdvd := Magnitude.one_dvd_units_nearest d.numerator
    rw [h] at hdvd
    exact absurd (Nat.mod_eq_zero_of_dvd hdvd) hrank

end Shortest

/-! ## Digits -/

namespace Numeral

/-- Characters that are decimal digits. -/
def AreDigits (cs : List Char) : Prop :=
  ∀ c ∈ cs, c.isDigit = true

theorem areDigits_toDigits (n : Nat) : AreDigits (Nat.toDigits 10 n) :=
  fun _ hc => Nat.isDigit_of_mem_toDigits (by decide) (by decide) hc

theorem areDigits_append {cs ds : List Char} (hcs : AreDigits cs) (hds : AreDigits ds) :
    AreDigits (cs ++ ds) := by
  intro c hc
  rcases List.mem_append.mp hc with h | h
  · exact hcs c h
  · exact hds c h

theorem areDigits_leftpad {cs : List Char} (n : Nat) (hcs : AreDigits cs) :
    AreDigits (cs.leftpad n '0') := by
  apply areDigits_append
  · intro c hc
    rw [List.eq_of_mem_replicate hc]
    decide
  · exact hcs

theorem toNat_of_isDigit {c : Char} (h : c.isDigit = true) : 0x30 ≤ c.toNat ∧ c.toNat ≤ 0x39 := by
  simp only [Char.isDigit, Bool.and_eq_true, decide_eq_true_eq, ge_iff_le,
    UInt32.le_iff_toNat_le] at h
  exact h

theorem isDigit_ofChar {c : Char} (h : c.isDigit = true) : Byte.isDigit (Byte.ofChar c) = true := by
  obtain ⟨hlow, hhigh⟩ := toNat_of_isDigit h
  have hnat : c.toNat.toUInt8.toNat = c.toNat :=
    UInt8.toNat_ofNat_of_lt' (by simp [UInt8.size]; omega)
  unfold Byte.isDigit Byte.ofChar
  rw [Bool.and_eq_true, decide_eq_true_eq, decide_eq_true_eq, UInt8.le_iff_toNat_le,
    UInt8.le_iff_toNat_le, hnat]
  exact ⟨hlow, hhigh⟩

theorem toChar_ofChar {c : Char} (h : c.toNat < 256) : Byte.toChar (Byte.ofChar c) = c := by
  have hnat : c.toNat.toUInt8.toNat = c.toNat :=
    UInt8.toNat_ofNat_of_lt' (by simp [UInt8.size]; omega)
  unfold Byte.toChar Byte.ofChar
  rw [hnat, Char.ofNat_toNat]

theorem all_isDigit {cs : List Char} (h : AreDigits cs) :
    (Byte.ofChars cs).all Byte.isDigit = true := by
  rw [List.all_eq_true]
  intro b hb
  obtain ⟨c, hc, rfl⟩ := List.mem_map.mp hb
  exact isDigit_ofChar (h c hc)

/-- The bytes of digits spell the number that the digits do. -/
theorem value_ofChars {cs : List Char} (h : AreDigits cs) :
    value (Byte.ofChars cs) = Nat.ofDigitChars 10 cs 0 := by
  have hmap : (Byte.ofChars cs).map Byte.toChar = cs := by
    unfold Byte.ofChars
    rw [List.map_map, List.map_congr_left (g := id)]
    · exact List.map_id cs
    · intro c hc
      have := (toNat_of_isDigit (h c hc)).2
      exact toChar_ofChar (by omega)
  unfold value
  rw [hmap]

/-- A sign, which may be missing, and whether it is a minus. -/
inductive IsSign : List UInt8 → Bool → Prop
  | missing : IsSign [] false
  | plus : IsSign [Byte.ofChar '+'] false
  | minus : IsSign [Byte.ofChar '-'] true

theorem splitSign_cons (b : UInt8) (rest : List UInt8) :
    splitSign (b :: rest) = if b = Byte.ofChar '-' then (true, rest)
      else if b = Byte.ofChar '+' then (false, rest) else (false, b :: rest) :=
  rfl

/-- A sign is taken off what starts with a digit or a point. -/
theorem splitSign_of_isSign {sign : List UInt8} {negative : Bool} (h : IsSign sign negative)
    {b : UInt8} (hb : b = Byte.ofChar '.' ∨ Byte.isDigit b = true) (rest : List UInt8) :
    splitSign (sign ++ b :: rest) = (negative, b :: rest) := by
  cases h with
  | plus => rfl
  | minus => rfl
  | missing =>
    have hne {sign : Char} (hpoint : Byte.ofChar sign ≠ Byte.ofChar '.')
        (hdigit : Byte.isDigit (Byte.ofChar sign) = false) : b ≠ Byte.ofChar sign := by
      rintro rfl
      rcases hb with hb | hb
      · exact hpoint hb
      · exact absurd (hb.symm.trans hdigit) (by decide)
    rw [List.nil_append, splitSign_cons, if_neg (hne (by decide) (by decide)),
      if_neg (hne (by decide) (by decide))]

theorem exists_isSign (word : List UInt8) :
    ∃ sign, word = sign ++ (splitSign word).2 ∧ IsSign sign (splitSign word).1 := by
  cases word with
  | nil => exact ⟨[], rfl, .missing⟩
  | cons b rest =>
    rw [splitSign_cons]
    by_cases hminus : b = Byte.ofChar '-'
    · rw [if_pos hminus, hminus]
      exact ⟨_, rfl, .minus⟩
    by_cases hplus : b = Byte.ofChar '+'
    · rw [if_neg hminus, if_pos hplus, hplus]
      exact ⟨_, rfl, .plus⟩
    · rw [if_neg hminus, if_neg hplus]
      exact ⟨_, rfl, .missing⟩

/-- Digits are all before a point. -/
theorem inner_of_isDigit {b : UInt8} (hb : Byte.isDigit b = true) :
    (b != Byte.ofChar '.') = true := by
  rw [bne_iff_ne]
  intro h
  rw [h] at hb
  exact absurd hb (by decide)

theorem splitPoint_digits {ws : List UInt8} (h : ws.all Byte.isDigit = true) :
    splitPoint ws = (ws, none) := by
  have hall : ∀ b ∈ ws, (b != Byte.ofChar '.') = true :=
    fun b hb => inner_of_isDigit (List.all_eq_true.mp h b hb)
  have hdrop : (ws ++ []).dropWhile (· != Byte.ofChar '.') = [] :=
    List.dropWhile_append_of_pos hall
  rw [List.append_nil] at hdrop
  unfold splitPoint
  simp only [hdrop]

theorem splitPoint_point {ws : List UInt8} (h : ws.all Byte.isDigit = true) (fs : List UInt8) :
    splitPoint (ws ++ Byte.ofChar '.' :: fs) = (ws, some fs) := by
  have hall : ∀ b ∈ ws, (b != Byte.ofChar '.') = true :=
    fun b hb => inner_of_isDigit (List.all_eq_true.mp h b hb)
  unfold splitPoint
  simp only [List.dropWhile_append_of_pos hall, List.takeWhile_append_of_pos hall]
  simp

theorem splitPoint_eq (unsigned : List UInt8) :
    splitPoint unsigned = (unsigned, none) ∨
      ∃ ws fs, unsigned = ws ++ Byte.ofChar '.' :: fs ∧ splitPoint unsigned = (ws, some fs) := by
  have happend := List.takeWhile_append_dropWhile (p := (· != Byte.ofChar '.')) (l := unsigned)
  unfold splitPoint
  simp only
  split
  · exact .inl rfl
  · next b fraction hdrop =>
    rw [hdrop] at happend
    have hb : b = Byte.ofChar '.' := by
      have hhead := List.head?_dropWhile_not (· != Byte.ofChar '.') unsigned
      rw [hdrop] at hhead
      simpa using hhead
    rw [hb] at happend
    exact .inr ⟨_, _, happend.symm, rfl⟩

/-! ## Numerals -/

section Words

variable {word ws fs : List UInt8} {negative : Bool}

/-- A word without a point is an integer if it fits. -/
theorem parse?_of_whole (hsign : splitSign word = (negative, ws))
    (hws : ws.all Byte.isDigit = true) (hne : ws ≠ []) :
    parse? word = some ((int64? negative (value ws)).elim
      (.real (Binary64.ofDecimal negative ⟨value ws, 0⟩)) .integer) := by
  have hempty : ws.isEmpty = false := by
    simpa using hne
  unfold parse?
  simp only [hsign, splitPoint_digits hws, Option.getD_none, List.append_nil, List.all_nil, hws,
    hempty]
  cases int64? negative (value ws) <;> rfl

/-- A word with a point is a real. -/
theorem parse?_of_point (hsign : splitSign word = (negative, ws ++ Byte.ofChar '.' :: fs))
    (hws : ws.all Byte.isDigit = true) (hfs : fs.all Byte.isDigit = true) (hne : ws ++ fs ≠ []) :
    parse? word = some (.real (Binary64.ofDecimal negative
      ⟨value (ws ++ fs), -(fs.length : Int)⟩)) := by
  have hempty : (ws ++ fs).isEmpty = false := by
    simpa using hne
  unfold parse?
  simp only [hsign, splitPoint_point hws, Option.getD_some, hws, hfs, hempty]
  rfl

/-- A word that is a number is a sign and digits, which may have a point. -/
theorem exists_of_parse?_eq_some {lexeme : Lexeme} (h : parse? word = some lexeme) :
    ∃ sign negative ws, IsSign sign negative ∧ ws.all Byte.isDigit = true ∧
      (word = sign ++ ws ∧ ws ≠ [] ∨ ∃ fs, word = sign ++ (ws ++ Byte.ofChar '.' :: fs) ∧
        fs.all Byte.isDigit = true ∧ ws ++ fs ≠ []) := by
  obtain ⟨sign, hword, hsign⟩ := exists_isSign word
  unfold parse? at h
  simp only at h
  split at h
  · next hdigits =>
    rw [Bool.and_eq_true, Bool.and_eq_true, Bool.not_eq_true', List.isEmpty_eq_false_iff] at hdigits
    obtain ⟨⟨hws, hfs⟩, hne⟩ := hdigits
    refine ⟨sign, _, _, hsign, hws, ?_⟩
    rcases splitPoint_eq (splitSign word).2 with hpoint | ⟨ws, fs, hunsigned, hpoint⟩
    · rw [hpoint] at hne ⊢
      exact .inl ⟨hword, by simpa using hne⟩
    · rw [hpoint] at hfs hne ⊢
      rw [hunsigned] at hword
      exact .inr ⟨fs, hword, hfs, hne⟩
  · exact absurd h (by simp)

end Words

variable {ws fs : List Char}

theorem splitSign_digits (negative : Bool) (hws : AreDigits ws) (hne : ws ≠ [])
    (rest : List UInt8) :
    splitSign (Byte.ofChars (if negative then ['-'] else []) ++ (Byte.ofChars ws ++ rest)) =
      (negative, Byte.ofChars ws ++ rest) := by
  have hsign : IsSign (Byte.ofChars (if negative then ['-'] else [])) negative := by
    cases negative
    · exact .missing
    · exact .minus
  match ws with
  | c :: ws => exact splitSign_of_isSign hsign (.inr (isDigit_ofChar (hws c List.mem_cons_self))) _

theorem parse?_whole (negative : Bool) (hws : AreDigits ws) (hne : ws ≠ []) {i : Int64}
    (hi : int64? negative (Nat.ofDigitChars 10 ws 0) = some i) :
    parse? (Byte.ofChars ((if negative then ['-'] else []) ++ ws)) = some (.integer i) := by
  have hsign := splitSign_digits negative hws hne []
  have hempty : Byte.ofChars ws ≠ [] := by
    simpa [Byte.ofChars] using hne
  rw [List.append_nil, ← Byte.ofChars_append] at hsign
  rw [parse?_of_whole hsign (all_isDigit hws) hempty, value_ofChars hws, hi]
  rfl

theorem parse?_point (negative : Bool) (hws : AreDigits ws) (hne : ws ≠ []) (hfs : AreDigits fs) :
    parse? (Byte.ofChars ((if negative then ['-'] else []) ++ (ws ++ '.' :: fs))) =
      some (.real (Binary64.ofDecimal negative
        ⟨Nat.ofDigitChars 10 (ws ++ fs) 0, -(fs.length : Int)⟩)) := by
  have hsign := splitSign_digits negative hws hne (Byte.ofChar '.' :: Byte.ofChars fs)
  have hempty : Byte.ofChars ws ++ Byte.ofChars fs ≠ [] := by
    simp [Byte.ofChars, hne]
  -- the sign is taken off first, then the word is split at its only point
  have hword : Byte.ofChars ((if negative then ['-'] else []) ++ (ws ++ '.' :: fs)) =
      Byte.ofChars (if negative then ['-'] else []) ++
        (Byte.ofChars ws ++ Byte.ofChar '.' :: Byte.ofChars fs) := by
    rw [Byte.ofChars_append, Byte.ofChars_append]
    rfl
  have hlength : (Byte.ofChars fs).length = fs.length := List.length_map _
  have hvalue := value_ofChars (areDigits_append hws hfs)
  rw [Byte.ofChars_append] at hvalue
  rw [hword, parse?_of_point hsign (all_isDigit hws) (all_isDigit hfs) hempty, hvalue, hlength]

theorem int64?_toInt (i : Int64) : int64? (decide (i.toInt < 0)) i.toInt.natAbs = some i := by
  have hsigned : (if decide (i.toInt < 0) = true then -(i.toInt.natAbs : Int)
      else (i.toInt.natAbs : Int)) = i.toInt := by
    split
    · next h =>
      have := of_decide_eq_true h
      omega
    · next h =>
      have := of_decide_eq_false (Bool.eq_false_iff.mpr h)
      omega
  have hlow : -2 ^ 63 ≤ i.toInt := i.minValue_le_toInt
  have hhigh : i.toInt < 2 ^ 63 := Int64.toInt_lt i
  unfold int64?
  simp only [hsigned, if_pos (And.intro hlow hhigh), Int64.ofInt_toInt]

theorem toInt_of_int64? {negative : Bool} {n : Nat} {i : Int64} (h : int64? negative n = some i) :
    i.toInt = if negative then -(n : Int) else (n : Int) := by
  unfold int64? at h
  simp only at h
  generalize (if negative then -(n : Int) else (n : Int)) = v at h ⊢
  split at h
  · next hfits => rw [← Option.some.inj h, Int64.toInt_ofInt_of_le hfits.1 hfits.2]
  · exact absurd h (by simp)

/-- **Integers** that are written are read as themselves. -/
theorem parse?_writeInteger (i : Int64) :
    parse? (Operand.writeInteger i) = some (.integer i) := by
  have hvalue : int64? (decide (i.toInt < 0))
      (Nat.ofDigitChars 10 (Nat.toDigits 10 i.toInt.natAbs) 0) = some i := by
    rw [Nat.ofDigitChars_ten_toDigits]
    exact int64?_toInt i
  have hparse := parse?_whole _ (areDigits_toDigits _) Nat.toDigits_ne_nil hvalue
  -- a negative number has its sign in front, as a numeral does
  have hchars : Decimal.wholeChars i.toInt =
      (if decide (i.toInt < 0) = true then ['-'] else []) ++ Nat.toDigits 10 i.toInt.natAbs := by
    unfold Decimal.wholeChars
    by_cases h : i.toInt < 0
    · simp only [h, if_true, decide_true]
      rfl
    · simp only [h, if_false, decide_false, Bool.false_eq_true]
      rfl
  unfold Operand.writeInteger
  rw [hchars]
  exact hparse

theorem isLead_of_isDigit {b : UInt8} (hb : Byte.isDigit b = true) : isLead b = true := by
  unfold isLead
  rw [hb, Bool.or_true]

theorem isLead_of_isSign {sign : List UInt8} {negative : Bool} (h : IsSign sign negative) :
    ∀ b ∈ sign, isLead b = true := by
  cases h with
  | missing => exact List.forall_mem_nil _
  | plus => decide +kernel
  | minus => decide +kernel

theorem isLead_of_all {ws : List UInt8} (h : ws.all Byte.isDigit = true) :
    ∀ b ∈ ws, isLead b = true :=
  fun b hb => isLead_of_isDigit (List.all_eq_true.mp h b hb)

/-- A word that is a number is made of signs, digits and points. -/
theorem isLead_of_parse? {word : List UInt8} {lexeme : Lexeme} (h : parse? word = some lexeme) :
    word ≠ [] ∧ ∀ b ∈ word, isLead b = true := by
  obtain ⟨sign, negative, ws, hsign, hws, hword⟩ := exists_of_parse?_eq_some h
  have hsign := isLead_of_isSign hsign
  have hws := isLead_of_all hws
  rcases hword with ⟨rfl, hne⟩ | ⟨fs, rfl, hfs, hne⟩
  · refine ⟨by simp [hne], fun b hb => ?_⟩
    rcases List.mem_append.mp hb with hb | hb
    · exact hsign b hb
    · exact hws b hb
  · refine ⟨by simp, fun b hb => ?_⟩
    rcases List.mem_append.mp hb with hb | hb
    · exact hsign b hb
    rcases List.mem_append.mp hb with hb | hb
    · exact hws b hb
    rcases List.mem_cons.mp hb with rfl | hb
    · decide
    · exact isLead_of_all hfs b hb

end Numeral

/-! ## Reals -/

namespace Decimal

theorem places_of_neg {d : Decimal} (h : d.exponent < 0) :
    0 < (-d.exponent).toNat ∧ -((-d.exponent).toNat : Int) = d.exponent := by
  omega

/-- A decimal with places behind the point. -/
theorem chars_of_neg {d : Decimal} (h : d.exponent < 0) :
    d.chars = Nat.toDigits 10 (d.coefficient / 10 ^ (-d.exponent).toNat) ++
      '.' :: (Nat.toDigits 10 (d.coefficient % 10 ^ (-d.exponent).toNat)).leftpad
        (-d.exponent).toNat '0' := by
  have hplaces : (-d.exponent).toNat ≠ 0 := by omega
  have hwhole : d.exponent.toNat = 0 := by omega
  have hnumerator : d.numerator = d.coefficient := by
    unfold numerator
    rw [hwhole, Nat.pow_zero, Nat.mul_one]
  unfold chars denominator
  simp only [if_neg hplaces, hnumerator]

/-- A whole number with a point. -/
theorem charsWithPoint_whole (n : Nat) :
    charsWithPoint ⟨n, 0⟩ = Nat.toDigits 10 n ++ '.' :: ['0'] := by
  simp [charsWithPoint, chars, numerator, denominator]

/-- The digits on both sides of the point spell the coefficient. -/
theorem ofDigitChars_places {n places : Nat} (hplaces : 0 < places) :
    Nat.ofDigitChars 10 (Nat.toDigits 10 (n / 10 ^ places) ++
      (Nat.toDigits 10 (n % 10 ^ places)).leftpad places '0') 0 = n ∧
    ((Nat.toDigits 10 (n % 10 ^ places)).leftpad places '0').length = places := by
  have hlt : n % 10 ^ places < 10 ^ places := Nat.mod_lt _ (Nat.pow_pos (by decide))
  have hle := (Nat.length_toDigits_le_iff (b := 10) (by decide) hplaces).mpr hlt
  -- the digits behind the point are padded to their number of places
  generalize hk : (Nat.toDigits 10 (n % 10 ^ places)).length = k at hle
  constructor
  · unfold List.leftpad
    rw [hk, Nat.ofDigitChars_append, Nat.ofDigitChars_ten_toDigits, Nat.ofDigitChars_append,
      Nat.ofDigitChars_replicate_zero, Nat.ofDigitChars_eq_ofDigitChars_zero,
      Nat.ofDigitChars_ten_toDigits, hk, ← Nat.mul_assoc, ← Nat.pow_add,
      Nat.add_sub_cancel' hle]
    exact Nat.div_add_mod n (10 ^ places)
  · rw [List.length_leftpad, hk]
    exact Nat.max_eq_left hle

end Decimal

namespace Binary64

/-- Finite values; the others are infinite or no numbers. -/
def IsFinite (x : Binary64) : Prop :=
  ∃ (negative : Bool) (rank : Nat), rank < Magnitude.infinity ∧ x = ofRank negative rank

/-- The two infinite values. -/
def IsInfinite (x : Binary64) : Prop :=
  ∃ negative : Bool, x = ofRank negative Magnitude.infinity

theorem isFinite_or_isInfinite (negative : Bool) (rank : Nat) :
    (ofRank negative rank).IsFinite ∨ (ofRank negative rank).IsInfinite := by
  by_cases h : rank < Magnitude.infinity
  · exact .inl ⟨negative, rank, h, rfl⟩
  · have hmin : min rank Magnitude.infinity = min Magnitude.infinity Magnitude.infinity := by
      omega
    refine .inr ⟨negative, ?_⟩
    unfold ofRank
    simp only [hmin]

theorem ofRank_of_lt {rank : Nat} (h : rank < Magnitude.infinity) (negative : Bool) :
    ofRank negative rank = .number negative ⟨rank, by omega⟩ := by
  unfold ofRank
  simp only [Nat.min_eq_left (Nat.le_of_lt h)]

/-- The finite values are those that are a number of units. -/
theorem isFinite_iff {x : Binary64} : x.IsFinite ↔ x.units?.isSome = true := by
  constructor
  · intro h
    obtain ⟨negative, rank, hrank, rfl⟩ := h
    rw [ofRank_of_lt hrank, units?, if_pos hrank]
    rfl
  · intro h
    cases x with
    | nan => exact absurd h Bool.false_ne_true
    | number negative rank =>
      by_cases hrank : rank.val < Magnitude.infinity
      · exact ⟨negative, rank, hrank, (ofRank_of_lt hrank negative).symm⟩
      · rw [units?, if_neg hrank] at h
        exact absurd h Bool.false_ne_true

instance (x : Binary64) : Decidable x.IsFinite :=
  decidable_of_iff _ isFinite_iff.symm

variable {negative : Bool} {rank : Nat}

/-- A whole magnitude is written with a point and a zero. -/
theorem operandChars_whole (h : rank < Magnitude.infinity)
    (hwhole : Magnitude.units rank % Magnitude.one = 0) :
    (ofRank negative rank).operandChars = (if negative then ['-'] else []) ++
      (Nat.toDigits 10 (Magnitude.units rank / Magnitude.one) ++ '.' :: ['0']) := by
  rw [ofRank_of_lt h]
  unfold operandChars units?
  simp only [if_pos h, if_pos hwhole, Decimal.charsWithPoint_whole]
  rfl

/-- Any other magnitude is written as its shortest decimal. -/
theorem operandChars_not_whole (h : rank < Magnitude.infinity)
    (hwhole : Magnitude.units rank % Magnitude.one ≠ 0) :
    (ofRank negative rank).operandChars = (if negative then ['-'] else []) ++
      (Shortest.ofRank .up rank).chars := by
  have hrank : rank ≠ 0 := by
    intro hzero
    subst hzero
    rw [Magnitude.units_of_lt (by decide), Nat.zero_mod] at hwhole
    exact absurd rfl hwhole
  rw [ofRank_of_lt h]
  unfold operandChars units? chars shortest?
  simp only [if_pos h, if_neg hwhole, if_neg hrank]
  rfl

/-- A decimal is the value of the rank that it rounds to. -/
theorem ofDecimal_eq {d : Decimal}
    (h : Magnitude.nearest (d.numerator * Magnitude.one) d.denominator = rank)
    (negative : Bool) : ofDecimal negative d = ofRank negative rank := by
  unfold ofDecimal ofRatio
  rw [h]

/-- A whole magnitude in tenths. -/
theorem nearest_tenths (hwhole : Magnitude.units rank % Magnitude.one = 0) {d : Decimal}
    (hd : d = ⟨10 * (Magnitude.units rank / Magnitude.one), -1⟩) :
    Magnitude.nearest (d.numerator * Magnitude.one) d.denominator = rank := by
  have hunits := Nat.div_mul_cancel (Nat.dvd_of_mod_eq_zero hwhole)
  have hnumerator : d.numerator * Magnitude.one = Magnitude.units rank * 10 := by
    rw [hd]
    unfold Decimal.numerator
    rw [show (-1 : Int).toNat = 0 from rfl, Nat.pow_zero, Nat.mul_one, Nat.mul_assoc, hunits,
      Nat.mul_comm]
  have hdenominator : d.denominator = 10 := by
    rw [hd]
    rfl
  rw [hnumerator, hdenominator]
  exact Magnitude.nearest_units_mul rank (by decide)

theorem parse?_tenths (h : rank < Magnitude.infinity)
    (hwhole : Magnitude.units rank % Magnitude.one = 0) :
    Numeral.parse? (Byte.ofChars (ofRank negative rank).operandChars) =
      some (.real (ofRank negative rank)) := by
  -- the digits of a whole number and a zero are so many tenths
  have hzero : Numeral.AreDigits ['0'] := by
    intro c hc
    rw [List.mem_singleton.mp hc]
    decide
  have hdigits : Nat.ofDigitChars 10
      (Nat.toDigits 10 (Magnitude.units rank / Magnitude.one) ++ ['0']) 0 =
      10 * (Magnitude.units rank / Magnitude.one) := by
    rw [Nat.ofDigitChars_append, Nat.ofDigitChars_ten_toDigits]
    exact Nat.ofDigitChars_replicate_zero (n := 1)
  have hexponent : -((['0'].length : Nat) : Int) = -1 := rfl
  rw [operandChars_whole h hwhole, Numeral.parse?_point negative (Numeral.areDigits_toDigits _)
    Nat.toDigits_ne_nil hzero, hdigits, hexponent, ofDecimal_eq (nearest_tenths hwhole rfl)]

/-- A decimal with places behind the point is read as the value that it rounds to. -/
theorem parse?_decimal {d : Decimal}
    (h : Magnitude.nearest (d.numerator * Magnitude.one) d.denominator = rank)
    (hneg : d.exponent < 0) :
    Numeral.parse? (Byte.ofChars ((if negative then ['-'] else []) ++ d.chars)) =
      some (.real (ofRank negative rank)) := by
  have hvalue := ofDecimal_eq h negative
  obtain ⟨coefficient, exponent⟩ := d
  obtain ⟨hplaces, hexponent⟩ := Decimal.places_of_neg hneg
  obtain ⟨hdigits, hlength⟩ := Decimal.ofDigitChars_places (n := coefficient) hplaces
  rw [Decimal.chars_of_neg hneg, Numeral.parse?_point negative (Numeral.areDigits_toDigits _)
    Nat.toDigits_ne_nil (Numeral.areDigits_leftpad _ (Numeral.areDigits_toDigits _)),
    hdigits, hlength, hexponent, hvalue]

theorem parse?_shortest (h : rank < Magnitude.infinity)
    (hwhole : Magnitude.units rank % Magnitude.one ≠ 0) :
    Numeral.parse? (Byte.ofChars (ofRank negative rank).operandChars) =
      some (.real (ofRank negative rank)) := by
  have hrounds := Shortest.nearest_ofRank .up rank
  rw [operandChars_not_whole h hwhole]
  exact parse?_decimal hrounds (Shortest.exponent_neg_of_not_whole hrounds hwhole)

/-- **Reals** that are finite are written so that they are read as themselves. -/
theorem parse?_operandChars {x : Binary64} (hx : x.IsFinite) :
    Numeral.parse? (Byte.ofChars x.operandChars) = some (.real x) := by
  obtain ⟨negative, rank, h, rfl⟩ := hx
  by_cases hwhole : Magnitude.units rank % Magnitude.one = 0
  · exact parse?_tenths h hwhole
  · exact parse?_shortest h hwhole

end Binary64

end PageContent
