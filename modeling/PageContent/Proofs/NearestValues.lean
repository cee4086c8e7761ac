import PageContent.Proofs.Numbers
import Mathlib.Data.Rat.Cast.Order
import Mathlib.Algebra.Order.Field.Basic
import Mathlib.Tactic.Linarith
import Mathlib.Tactic.Ring
import Mathlib.Tactic.FieldSimp

/-! # Correct rounding

    The value of 64 bits that a decimal is rounded to is the nearest one there is.

    * **Values**: what a rank stands for, by the fields of the interchange format. Ranks
      and values grow together, so that a value has one rank only.
    * **Grids**: where the last bit of a significand is worth `2 ^ s` units, the values
      that have this bit lie on a grid. All others lie below the first 53-bit significand.
    * **Nearest**: no other value is nearer, and of two that are equally near it is the
      one with the even significand. At most one rank is nearest.

    Main statements: `Magnitude.isNearest_nearest` and `Binary64.isNearest_ofDecimal`.
-/

namespace PageContent

/-! ## Rounding to whole numbers -/

namespace Decimal

variable {p q : Nat}

/-- Half way between two whole numbers the even one is taken. -/
theorem roundDiv_even (hq : 0 < q)
    (h : 2 * p = 2 * (roundDiv p q * q) + q ∨ 2 * (roundDiv p q * q) = 2 * p + q) :
    roundDiv p q % 2 = 0 := by
  have hdm : q * (p / q) + p % q = p := Nat.div_add_mod p q
  have hr : p % q < q := Nat.mod_lt p hq
  have hfloor : p / q * q = q * (p / q) := Nat.mul_comm _ _
  have hnext : (p / q + 1) * q = q * (p / q) + q := by rw [Nat.add_mul, hfloor, Nat.one_mul]
  unfold roundDiv at h ⊢
  simp only at h ⊢
  split at h
  · rw [hfloor] at h
    omega
  split at h
  · rw [hnext] at h
    omega
  · rw [if_neg (by assumption), if_neg (by assumption)]
    omega

/-- No other multiple is nearer, and one that is equally near means a tie. -/
theorem roundDiv_nearest (hq : 0 < q) {k : Nat} (hk : k ≠ roundDiv p q) :
    |((roundDiv p q * q : Nat) : ℤ) - p| ≤ |((k * q : Nat) : ℤ) - p| ∧
      (|((k * q : Nat) : ℤ) - p| = |((roundDiv p q * q : Nat) : ℤ) - p| →
        roundDiv p q % 2 = 0) := by
  obtain ⟨hbelow, habove⟩ := roundDiv_near p q hq
  have heven := roundDiv_even (p := p) hq
  generalize roundDiv p q = n at hk hbelow habove heven ⊢
  -- the two multiples are at least one step apart
  have hstep : k * q + q ≤ n * q ∨ n * q + q ≤ k * q := by
    rcases Nat.lt_or_gt_of_ne hk with h | h
    · left
      rw [← Nat.succ_mul]
      exact Nat.mul_le_mul_right q h
    · right
      rw [← Nat.succ_mul]
      exact Nat.mul_le_mul_right q h
  generalize n * q = a at hbelow habove heven hstep ⊢
  generalize k * q = b at hstep ⊢
  constructor
  · rcases abs_cases ((a : ℤ) - p) with h | h <;> rcases abs_cases ((b : ℤ) - p) with h' | h' <;>
      omega
  · intro htie
    apply heven
    rcases abs_cases ((a : ℤ) - p) with h | h <;> rcases abs_cases ((b : ℤ) - p) with h' | h' <;>
      omega

end Decimal

namespace Magnitude

/-! ## Values -/

/-- The value of a rank: its low 52 bits are the fraction, and those above the exponent. -/
def value (rank : Nat) : ℚ :=
  let exponent := rank / 2 ^ 52
  let fraction := rank % 2 ^ 52
  if exponent = 0 then (fraction : Nat) / 2 ^ precision
  else ((2 ^ 52 + fraction) * 2 ^ (exponent - 1) : Nat) / 2 ^ precision

theorem value_eq (rank : Nat) : value rank = (units rank : ℚ) / (one : ℚ) := by
  have hone : (one : ℚ) = 2 ^ precision := by
    unfold one
    push_cast
    rfl
  have hscale : scale rank = rank / 2 ^ 52 - 1 := rfl
  unfold value units
  rw [hone, hscale]
  simp only
  split
  · next hzero =>
    have hfraction : rank - (rank / 2 ^ 52 - 1) * 2 ^ 52 = rank % 2 ^ 52 := by omega
    rw [hfraction, hzero, Nat.zero_sub, Nat.pow_zero, Nat.mul_one]
  · have hfraction : rank - (rank / 2 ^ 52 - 1) * 2 ^ 52 = 2 ^ 52 + rank % 2 ^ 52 := by omega
    rw [hfraction]

/-- From one rank to the next the magnitude grows by the worth of the last bit. -/
theorem units_succ (rank : Nat) : units (rank + 1) = units rank + 2 ^ scale rank := by
  by_cases hsmall : rank + 1 < 2 ^ 53
  · have hscale : scale rank = 0 := by
      unfold scale
      omega
    rw [units_of_lt hsmall, units_of_lt (by omega), hscale, Nat.pow_zero]
  · obtain ⟨s, m, hlow, hhigh, rfl⟩ :
        ∃ s m, 2 ^ 52 ≤ m ∧ m < 2 ^ 53 ∧ rank = s * 2 ^ 52 + m :=
      ⟨rank / 2 ^ 52 - 1, rank - (rank / 2 ^ 52 - 1) * 2 ^ 52, by omega, by omega, by omega⟩
    have hscale : scale (s * 2 ^ 52 + m) = s := by
      unfold scale
      omega
    rw [hscale, units_add hlow hhigh]
    by_cases hlast : m + 1 < 2 ^ 53
    · rw [Nat.add_assoc, units_add (by omega) hlast, Nat.add_mul, Nat.one_mul]
    · -- the significand is full, and the next one starts over with twice the worth
      have hnext : s * 2 ^ 52 + m + 1 = (s + 1) * 2 ^ 52 + 2 ^ 52 := by omega
      have hfull : m = 2 ^ 53 - 1 := by omega
      rw [hnext, units_add (Nat.le_refl _) (by decide), hfull, Nat.pow_succ]
      omega

theorem units_strictMono : StrictMono units :=
  strictMono_nat_of_lt_succ fun rank => by
    rw [units_succ]
    exact Nat.lt_add_of_pos_right (Nat.pow_pos (by decide))

theorem value_strictMono : StrictMono value := by
  intro a b hab
  rw [value_eq, value_eq]
  have hone : (0 : ℚ) < (one : ℚ) := by exact_mod_cast one_pos
  exact (div_lt_div_iff_of_pos_right hone).mpr (by exact_mod_cast units_strictMono hab)

/-! ## The grid of a significand -/

/-- A rank whose last bit is worth at least `2 ^ s` lies on the grid of `2 ^ s`; any
    other is below all significands of 53 bits on this grid. -/
theorem on_grid_or_below (s rank : Nat) :
    (∃ k, units rank = k * 2 ^ s) ∨ 0 < s ∧ units rank < 2 ^ 52 * 2 ^ s := by
  by_cases hs : s ≤ scale rank
  · obtain ⟨d, hd⟩ := Nat.exists_eq_add_of_le hs
    refine .inl ⟨(rank - scale rank * 2 ^ 52) * 2 ^ d, ?_⟩
    rw [units, Nat.mul_assoc, ← Nat.pow_add, Nat.add_comm d s, ← hd]
  · refine .inr ⟨by omega, ?_⟩
    have hsignificand : rank - scale rank * 2 ^ 52 < 2 ^ 53 := by
      unfold scale
      omega
    obtain ⟨d, hd⟩ : ∃ d, s = scale rank + 1 + d := Nat.exists_eq_add_of_le (by omega)
    calc units rank < 2 ^ 53 * 2 ^ scale rank :=
          (Nat.mul_lt_mul_right (Nat.pow_pos (by decide))).mpr hsignificand
      _ = 2 ^ 52 * 2 ^ (scale rank + 1) := by rw [Nat.pow_succ 2 (scale rank)]; omega
      _ ≤ 2 ^ 52 * 2 ^ s :=
          Nat.mul_le_mul_left _ (Nat.pow_le_pow_right (by decide) (by omega))

section Nearest

variable {p q s : Nat} (hs : s = (p / q).log2 - 52)

include hs

theorem nearest_eq : nearest p q = s * 2 ^ 52 + Decimal.roundDiv p (q * 2 ^ s) := by
  subst hs
  rfl

/-- The significand of the quotient has 53 bits, or fewer if a unit is worth its last one. -/
theorem significand_bounds :
    p / (q * 2 ^ s) < 2 ^ 53 ∧ (0 < s → 2 ^ 52 ≤ p / (q * 2 ^ s)) := by
  have hpos : 0 < 2 ^ s := Nat.pow_pos (by decide)
  rw [← Nat.div_div_eq_div_mul]
  constructor
  · rw [Nat.div_lt_iff_lt_mul hpos, ← Nat.pow_add]
    exact Nat.lt_of_lt_of_le Nat.lt_log2_self (Nat.pow_le_pow_right (by decide) (by omega))
  · intro hlong
    have hne : p / q ≠ 0 := by
      intro hzero
      rw [hzero, Nat.log2_zero] at hs
      omega
    rw [Nat.le_div_iff_mul_le hpos, ← Nat.pow_add]
    exact Nat.le_trans (Nat.pow_le_pow_right (by decide) (by omega)) (Nat.log2_self_le hne)

/-- The rank of the nearest magnitude is bounded by the length of the quotient. -/
theorem nearest_le : nearest p q ≤ (s + 2) * 2 ^ 52 := by
  have hhigh := (significand_bounds hs).1
  have hround := Decimal.roundDiv_eq_or p (q * 2 ^ s)
  rw [nearest_eq hs]
  omega

/-- The nearest magnitude is a multiple of what the last bit of the quotient is worth. -/
theorem units_nearest : units (nearest p q) = Decimal.roundDiv p (q * 2 ^ s) * 2 ^ s := by
  obtain ⟨hhigh, hlow⟩ := significand_bounds hs
  have hround := Decimal.roundDiv_eq_or p (q * 2 ^ s)
  rw [nearest_eq hs]
  generalize Decimal.roundDiv p (q * 2 ^ s) = n at hround ⊢
  by_cases hcarry : n = 2 ^ 53
  · -- rounding up a full significand starts the next one
    have hrank : s * 2 ^ 52 + n = (s + 1) * 2 ^ 52 + 2 ^ 52 := by omega
    rw [hrank, units_add (Nat.le_refl _) (by decide), hcarry, Nat.pow_succ]
    omega
  · by_cases hlong : 0 < s
    · exact units_add (by omega) (by omega)
    · have hzero : s = 0 := by omega
      rw [hzero, Nat.zero_mul, Nat.zero_add, Nat.pow_zero, Nat.mul_one]
      exact units_of_lt (by omega)

end Nearest

/-- No other magnitude is nearer to the quotient, and if one is equally near the rank is
    even. -/
theorem nearest_near (p : Nat) {q : Nat} (hq : 0 < q) {rank : Nat} (hrank : rank ≠ nearest p q) :
    |((units (nearest p q) * q : Nat) : ℤ) - p| ≤ |((units rank * q : Nat) : ℤ) - p| ∧
      (|((units rank * q : Nat) : ℤ) - p| = |((units (nearest p q) * q : Nat) : ℤ) - p| →
        nearest p q % 2 = 0) := by
  obtain ⟨s, hs⟩ : ∃ s, s = (p / q).log2 - 52 := ⟨_, rfl⟩
  have hstep : 0 < q * 2 ^ s := Nat.mul_pos hq (Nat.pow_pos (by decide))
  have hunits := units_nearest hs
  have hgrid (k : Nat) : k * 2 ^ s * q = k * (q * 2 ^ s) := by
    rw [Nat.mul_assoc, Nat.mul_comm (2 ^ s)]
  have heven : Decimal.roundDiv p (q * 2 ^ s) % 2 = 0 → nearest p q % 2 = 0 := by
    rw [nearest_eq hs]
    omega
  rcases on_grid_or_below s rank with ⟨k, hk⟩ | ⟨hlong, hbelow⟩
  · have hne : k ≠ Decimal.roundDiv p (q * 2 ^ s) := by
      rintro rfl
      exact hrank (units_strictMono.injective (hk.trans hunits.symm))
    obtain ⟨hnear, htie⟩ := Decimal.roundDiv_nearest hstep hne
    rw [hunits, hk, hgrid, hgrid]
    exact ⟨hnear, fun h => heven (htie h)⟩
  · -- the least significand of 53 bits lies between such a magnitude and the quotient
    have hleast : 2 ^ 52 * (q * 2 ^ s) ≤ p :=
      (Nat.le_div_iff_mul_le hstep).mp ((significand_bounds hs).2 hlong)
    have hfar : units rank * q < 2 ^ 52 * (q * 2 ^ s) := by
      rw [← hgrid]
      exact (Nat.mul_lt_mul_right hq).mpr hbelow
    have hnear : |((units (nearest p q) * q : Nat) : ℤ) - p| ≤
        |((2 ^ 52 * (q * 2 ^ s) : Nat) : ℤ) - p| := by
      rw [hunits, hgrid]
      by_cases hn : 2 ^ 52 = Decimal.roundDiv p (q * 2 ^ s)
      · rw [hn]
      · exact (Decimal.roundDiv_nearest hstep hn).1
    have hlt : |((2 ^ 52 * (q * 2 ^ s) : Nat) : ℤ) - p| < |((units rank * q : Nat) : ℤ) - p| := by
      rw [abs_of_nonpos (by omega), abs_of_nonpos (by omega)]
      omega
    exact ⟨(lt_of_le_of_lt hnear hlt).le, fun h => absurd h (lt_of_le_of_lt hnear hlt).ne'⟩

/-! ## The nearest value -/

/-- The rank of the value nearest to a number, values beyond every bound included. Where
    another one is equally near, the rank is even. -/
def IsNearest (x : ℚ) (rank : Nat) : Prop :=
  ∀ r, r ≠ rank → |value rank - x| ≤ |value r - x| ∧
    (|value r - x| = |value rank - x| → rank % 2 = 0)

/-- A distance to a quotient is a distance of whole numbers. -/
theorem abs_value_sub (rank p : Nat) {q : Nat} (hq : 0 < q) :
    |value rank - (p : ℚ) / q| =
      (|((units rank * q : Nat) : ℤ) - (p * one : Nat)| : ℤ) / ((one : ℚ) * q) := by
  have hone : (0 : ℚ) < one := by exact_mod_cast one_pos
  have hq' : (0 : ℚ) < q := by exact_mod_cast hq
  have hdifference : value rank - (p : ℚ) / q =
      (((units rank * q : Nat) : ℤ) - (p * one : Nat) : ℤ) / ((one : ℚ) * q) := by
    rw [value_eq]
    push_cast
    field_simp
  rw [hdifference, abs_div, abs_of_pos (mul_pos hone hq'), Int.cast_abs]

/-- **Rounding** is correct: it takes the rank of the nearest value. -/
theorem isNearest_nearest (p : Nat) {q : Nat} (hq : 0 < q) :
    IsNearest ((p : ℚ) / q) (nearest (p * one) q) := by
  intro r hr
  obtain ⟨hnear, htie⟩ := nearest_near (p * one) hq hr
  have hpos : (0 : ℚ) < one * q := by
    exact_mod_cast Nat.mul_pos one_pos hq
  rw [abs_value_sub _ _ hq, abs_value_sub _ _ hq]
  constructor
  · exact div_le_div_of_nonneg_right (by exact_mod_cast hnear) hpos.le
  · intro h
    exact htie (by exact_mod_cast (div_left_inj' hpos.ne').mp h)

/-- Only one rank is nearest: two that are equally near are neighbours, and of two
    neighbours only one is even. -/
theorem isNearest_unique {x : ℚ} {a b : Nat} (ha : IsNearest x a) (hb : IsNearest x b) :
    a = b := by
  by_contra hne
  wlog hlt : a < b generalizing a b
  · exact this hb ha (Ne.symm hne) (by omega)
  obtain ⟨hab, heven⟩ := ha b (Ne.symm hne)
  obtain ⟨hba, heven'⟩ := hb a hne
  have htie : |value a - x| = |value b - x| := le_antisymm hab hba
  have hvalue := value_strictMono hlt
  by_cases hnext : a + 1 < b
  · -- a value between the two would be nearer
    have hlow := value_strictMono (Nat.lt_succ_self a)
    have hhigh := value_strictMono hnext
    have hbetween := (ha (a + 1) (by omega)).1
    rcases abs_cases (value a - x) with h | h <;> rcases abs_cases (value b - x) with h' | h' <;>
      rcases abs_cases (value (a + 1) - x) with h'' | h'' <;> linarith
  · have hsucc : b = a + 1 := by omega
    have heven_a := heven htie.symm
    have heven_b := heven' htie
    omega

end Magnitude

namespace Binary64

/-- The value of 64 bits that is nearest to a signed number; from the rank of infinity on
    this is an infinity. -/
def IsNearest (x : Binary64) (negative : Bool) (magnitude : ℚ) : Prop :=
  ∃ rank, Magnitude.IsNearest magnitude rank ∧ x = ofRank negative rank

/-- **Decimals** are rounded to the one value that is nearest. -/
theorem isNearest_ofDecimal {x : Binary64} (negative : Bool) (d : Decimal) :
    x.IsNearest negative ((d.numerator : ℚ) / d.denominator) ↔ x = ofDecimal negative d := by
  have hdenominator : 0 < d.denominator := Nat.pow_pos (by decide)
  have hnearest := Magnitude.isNearest_nearest d.numerator hdenominator
  constructor
  · rintro ⟨rank, hrank, rfl⟩
    rw [Magnitude.isNearest_unique hrank hnearest]
    rfl
  · rintro rfl
    exact ⟨_, hnearest, rfl⟩

end Binary64

end PageContent
