import PickleTrial.Proofs.Number.FloatText

/-! The rational numbers that finite patterns stand for. The two zeros stand for one number; every
other number has one pattern. -/

namespace PickleTrial

/-- A number is told apart from all others by its significand and its power of two. -/
private theorem Shortest.Canonical.unique {m n : Nat} {q r : Int} (first : Canonical m q)
    (second : Canonical n r) (same : (m : ℚ) * 2 ^ q = n * 2 ^ r) : m = n ∧ q = r := by
  -- With the larger of two powers the significand is full, so the other one would be too long.
  have powers {m n : Nat} {q r : Int} (first : Canonical m q) (second : Canonical n r)
      (same : (m : ℚ) * 2 ^ q = n * 2 ^ r) : r ≤ q := by
    by_contra larger
    rcases Int.le.dest (Int.not_le.1 larger) with ⟨steps, power⟩
    have full : 2 ^ 52 ≤ n := by
      by_contra short
      have least := second.subnormal (Nat.not_le.1 short)
      have lower := first.lower
      omega
    have significand : (m : ℚ) = n * 2 ^ (steps + 1) := by
      have step : (2 : ℚ) ^ q ≠ 0 := zpow_ne_zero _ (by norm_num)
      apply mul_right_cancel₀ step
      rw [same, mul_assoc, ← zpow_natCast, ← zpow_add₀ (by norm_num)]
      congr 2
      push_cast
      omega
    have whole : m = n * (2 ^ steps * 2) := by exact_mod_cast significand
    have growth : n * (1 * 2) ≤ n * (2 ^ steps * 2) :=
      Nat.mul_le_mul_left n (Nat.mul_le_mul_right 2 Nat.one_le_two_pow)
    have bound := first.lt
    omega
  have power : q = r := le_antisymm (powers second first same.symm) (powers first second same)
  subst power
  have significand := mul_right_cancel₀ (zpow_ne_zero q (by norm_num)) same
  exact ⟨by exact_mod_cast significand, rfl⟩

/-- A quotient is a whole number if and only if the division leaves nothing. -/
private theorem rational_eq_natCast_iff {quotient : Nat × Nat} {whole : Nat}
    (positive : 0 < quotient.2) : rational quotient = whole ↔
      quotient.1 % quotient.2 = 0 ∧ quotient.1 / quotient.2 = whole := by
  have nonzero : (quotient.2 : ℚ) ≠ 0 := by exact_mod_cast positive.ne'
  rw [rational, div_eq_iff nonzero]
  constructor
  · intro same
    have product : quotient.1 = whole * quotient.2 := by exact_mod_cast same
    rw [product, Nat.mul_div_cancel _ positive]
    exact ⟨Nat.mul_mod_left _ _, rfl⟩
  · intro parts
    have product := Nat.div_mul_cancel (Nat.dvd_of_mod_eq_zero parts.1)
    rw [parts.2] at product
    exact_mod_cast product.symm

namespace Binary64

/-- The rational that a finite pattern stands for. -/
def value (number : Binary64) : ℚ :=
  if number.negative then -rational number.quotient else rational number.quotient

theorem rational_quotient (number : Binary64) :
    rational number.quotient = number.significand * (2 : ℚ) ^ number.exponent := by
  rw [quotient]
  simp only [Nat.shiftLeft_eq, Nat.one_mul]
  exact Shortest.rational_scaled number.significand 2 number.exponent

private theorem quotient_denominator_pos (number : Binary64) : 0 < number.quotient.2 := by
  rw [quotient]
  split
  · exact Nat.one_pos
  · rw [Nat.one_shiftLeft]
    exact Nat.two_pow_pos _

private theorem abs_value (number : Binary64) : |number.value| = rational number.quotient := by
  have nonnegative : 0 ≤ rational number.quotient := by
    rw [rational]
    positivity
  rw [value]
  split
  · rw [abs_neg, abs_of_nonneg nonnegative]
  · exact abs_of_nonneg nonnegative

private theorem toInt?_eq (number : Binary64) :
    number.toInt? =
      if number.exponentField = 2047 then none
      else if number.quotient.1 % number.quotient.2 = 0 then
        some (if number.negative then -((number.quotient.1 / number.quotient.2 : Nat) : Int)
          else (number.quotient.1 / number.quotient.2 : Nat))
      else none := by
  rw [toInt?, quotient]
  split
  · rfl
  · split
    · rw [Nat.mod_one, Nat.div_one, if_pos rfl]
      rfl
    · simp only
      by_cases exact : number.significand % 1 <<< number.exponent.natAbs = 0
      · rw [if_pos exact, if_pos exact]
        rfl
      · rw [if_neg exact, if_neg exact]
        rfl

/-- A pattern is read as a whole number where it stands for that number. -/
theorem toInt?_eq_some_iff {number : Binary64} {whole : Int} :
    number.toInt? = some whole ↔ number.exponentField ≠ 2047 ∧ number.value = whole := by
  have divided (magnitude : Nat) : rational number.quotient = magnitude ↔
      number.quotient.1 % number.quotient.2 = 0 ∧
        number.quotient.1 / number.quotient.2 = magnitude :=
    rational_eq_natCast_iff number.quotient_denominator_pos
  rw [toInt?_eq]
  constructor
  · intro found
    split at found
    · cases found
    · rename_i finite
      refine ⟨finite, ?_⟩
      split at found
      · rename_i exact
        have magnitude := (divided _).2 ⟨exact, rfl⟩
        rw [value, ← Option.some.inj found, magnitude]
        split <;> push_cast <;> rfl
      · cases found
  · rintro ⟨finite, same⟩
    have magnitude : rational number.quotient = whole.natAbs := by
      rw [← abs_value, same, ← Int.cast_abs, Int.abs_eq_natAbs, Int.cast_natCast]
    rcases (divided _).1 magnitude with ⟨exact, quotient⟩
    rw [value, magnitude] at same
    rw [if_neg finite, if_pos exact, quotient]
    rw [Option.some.injEq, ← Int.cast_inj (α := ℚ), ← same]
    split <;> simp only [Int.cast_neg, Int.cast_natCast]

theorem eq_of_fields {left right : Binary64} (sign : left.negative = right.negative)
    (field : left.exponentField = right.exponentField) (fraction : left.fraction = right.fraction) :
    left = right := by
  have bits := FloatText.bits_of_parts left
  rw [sign, field, fraction, ← FloatText.bits_of_parts right] at bits
  cases left
  cases right
  exact congrArg Binary64.mk (BitVec.eq_of_toNat_eq bits)

private theorem significand_ne_zero {number : Binary64} (nonzero : number.value ≠ 0) :
    number.significand ≠ 0 := by
  intro zero
  apply nonzero
  rw [← abs_eq_zero, abs_value, rational_quotient, zero, Nat.cast_zero, zero_mul]

/-- Patterns of one number other than zero have one sign. -/
private theorem negative_eq_of_value_eq {left right : Binary64} (same : left.value = right.value)
    (nonzero : left.value ≠ 0) : left.negative = right.negative := by
  have magnitude : rational left.quotient = rational right.quotient := by
    rw [← abs_value, ← abs_value, same]
  have positive : 0 < rational left.quotient := by
    rw [← abs_value]
    exact abs_pos.2 nonzero
  rw [value, value, ← magnitude] at same
  cases first : left.negative with
  | false =>
      cases second : right.negative with
      | false => rfl
      | true =>
          simp only [first, second, Bool.false_eq_true, if_true, if_false] at same
          linarith
  | true =>
      cases second : right.negative with
      | false =>
          simp only [first, second, Bool.false_eq_true, if_true, if_false] at same
          linarith
      | true => rfl

/-- Finite patterns of one number other than zero are one pattern. -/
theorem eq_of_value_eq {left right : Binary64} (leftFinite : left.exponentField ≠ 2047)
    (rightFinite : right.exponentField ≠ 2047) (same : left.value = right.value)
    (nonzero : left.value ≠ 0) : left = right := by
  have sign := negative_eq_of_value_eq same nonzero
  have leftSignificand := significand_ne_zero nonzero
  have rightSignificand := significand_ne_zero (same ▸ nonzero)
  have magnitude : rational left.quotient = rational right.quotient := by
    rw [← abs_value, ← abs_value, same]
  rw [rational_quotient, rational_quotient] at magnitude
  rcases (FloatText.canonical_of_finite leftFinite leftSignificand).unique
    (FloatText.canonical_of_finite rightFinite rightSignificand) magnitude with
    ⟨significand, exponent⟩
  have leftFraction : left.fraction < 2 ^ 52 := BitVec.isLt _
  have rightFraction : right.fraction < 2 ^ 52 := BitVec.isLt _
  rw [significand_eq, significand_eq] at significand
  rw [Binary64.exponent, Binary64.exponent] at exponent
  -- A significand of less than 53 digits tells the least field from all others.
  have field : left.exponentField = right.exponentField := by
    split at significand <;> split at significand <;> omega
  rw [field] at significand
  refine eq_of_fields sign field ?_
  split at significand <;> omega

end Binary64

end PickleTrial
