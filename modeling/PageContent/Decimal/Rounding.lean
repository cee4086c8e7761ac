/-! # Rounding a quotient

    The whole number nearest to `p / q`, a half going to the even neighbour.

    * **Within half a unit**: the result is at most half of `q` away from `p`
      when both are counted in units of `q`.
    * **Exact quotients** are kept.
-/

namespace PageContent

namespace Decimal

/-- The whole number nearest to `p / q`; of two equally near the even one. -/
def roundDiv (p q : Nat) : Nat :=
  let d := p / q
  let r := p % q
  if 2 * r < q then d
  else if q < 2 * r then d + 1
  else d + d % 2

/-- A quotient without remainder is its own nearest whole number. -/
theorem roundDiv_mul_self (n : Nat) {q : Nat} (hq : 0 < q) : roundDiv (n * q) q = n := by
  simp [roundDiv, Nat.mul_div_cancel _ hq, hq]

/-- The result is the floor of the quotient or the whole number after it. -/
theorem roundDiv_eq_or (p q : Nat) :
    roundDiv p q = p / q ∨ roundDiv p q = p / q + 1 := by
  simp only [roundDiv]
  have := Nat.mod_two_eq_zero_or_one (p / q)
  split
  · exact .inl rfl
  · split
    · exact .inr rfl
    · rcases this with h | h <;> simp [h]

/-- No whole number is nearer to the quotient: the distance is at most half a
    unit on either side. -/
theorem roundDiv_near (p q : Nat) (hq : 0 < q) :
    2 * p ≤ 2 * (roundDiv p q * q) + q ∧ 2 * (roundDiv p q * q) ≤ 2 * p + q := by
  have hdm : q * (p / q) + p % q = p := Nat.div_add_mod p q
  have hr : p % q < q := Nat.mod_lt p hq
  have hc : p / q * q = q * (p / q) := Nat.mul_comm _ _
  have hs : (p / q + 1) * q = q * (p / q) + q := by rw [Nat.add_mul, hc, Nat.one_mul]
  simp only [roundDiv]
  split
  · rw [hc]; omega
  · split
    · rw [hs]; omega
    · rcases Nat.mod_two_eq_zero_or_one (p / q) with h | h
      · rw [h, Nat.add_zero, hc]; omega
      · rw [h, hs]; omega

end Decimal

end PageContent
