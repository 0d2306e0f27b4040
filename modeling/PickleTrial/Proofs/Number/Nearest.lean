import Mathlib.Algebra.Order.Archimedean.Basic
import Mathlib.Data.Rat.Cast.Order
import Mathlib.Tactic.FieldSimp
import Mathlib.Tactic.Linarith
import Mathlib.Tactic.NormNum
import Mathlib.Tactic.Positivity
import Mathlib.Tactic.Ring
import PickleTrial.Number.Shortest

/-! The floating-point number nearest to a quotient. A positive finite number is a significand
times a power of two, and owns the interval of everything nearer to it than to its neighbours.
A quotient in the interval of a number has that number as its nearest one. -/

namespace PickleTrial

/-- The rational that a quotient of natural numbers stands for. -/
def rational (quotient : Nat × Nat) : ℚ :=
  quotient.1 / quotient.2

namespace Shortest

theorem scaled_denominator_pos {base : Nat} (positive : 0 < base) (value : Nat) (power : Int) :
    0 < (scaled value base power).2 := by
  rw [scaled]
  split
  · exact Nat.one_pos
  · exact Nat.pow_pos positive

theorem rational_scaled (value base : Nat) (power : Int) :
    rational (scaled value base power) = value * (base : ℚ) ^ power := by
  rw [scaled, rational]
  split
  · rename_i nonnegative
    rcases Int.eq_ofNat_of_zero_le nonnegative with ⟨count, rfl⟩
    simp
  · rename_i negative
    have counted : ∃ count : Nat, power = -count := ⟨power.natAbs, by omega⟩
    rcases counted with ⟨count, rfl⟩
    simp [div_eq_mul_inv]

private theorem atMost_iff {left right : Nat × Nat} (leftPositive : 0 < left.2)
    (rightPositive : 0 < right.2) : atMost left right ↔ rational left ≤ rational right := by
  have first : (0 : ℚ) < left.2 := by exact_mod_cast leftPositive
  have second : (0 : ℚ) < right.2 := by exact_mod_cast rightPositive
  rw [atMost, decide_eq_true_iff, rational, rational, div_le_div_iff₀ first second]
  exact_mod_cast Iff.rfl

private theorem below_iff {left right : Nat × Nat} (leftPositive : 0 < left.2)
    (rightPositive : 0 < right.2) : below left right ↔ rational left < rational right := by
  have first : (0 : ℚ) < left.2 := by exact_mod_cast leftPositive
  have second : (0 : ℚ) < right.2 := by exact_mod_cast rightPositive
  rw [below, decide_eq_true_iff, rational, rational, div_lt_div_iff₀ first second]
  exact_mod_cast Iff.rfl

/-! ## Intervals -/

/-- A significand and a power of two that a positive finite number has. -/
structure Canonical (m : Nat) (q : Int) : Prop where
  positive : 0 < m
  lt : m < 2 ^ 53
  lower : -1074 ≤ q
  upper : q ≤ 971
  subnormal : m < 2 ^ 52 → q = -1074

/-- How far the interval of `m * 2 ^ q` reaches down, in quarters of a step. -/
def quartersBelow (m : Nat) (q : Int) : Nat :=
  if m = 2 ^ 52 ∧ -1074 < q then 1 else 2

/-- The values that have `m * 2 ^ q` as their nearest number. -/
structure Within (m : Nat) (q : Int) (value : ℚ) : Prop where
  lower : (4 * m - quartersBelow m q) * (2 : ℚ) ^ (q - 2) ≤ value
  upper : value ≤ (4 * m + 2) * (2 : ℚ) ^ (q - 2)
  inside : m % 2 = 1 → (4 * m - quartersBelow m q) * (2 : ℚ) ^ (q - 2) < value ∧
    value < (4 * m + 2) * (2 : ℚ) ^ (q - 2)

private theorem quartersBelow_le (m : Nat) (q : Int) : quartersBelow m q ≤ 2 := by
  rw [quartersBelow]
  split <;> decide

private theorem rational_lowerEnd {m : Nat} (q : Int) (positive : 0 < m) :
    rational (lowerEnd m q) = (4 * m - quartersBelow m q) * (2 : ℚ) ^ (q - 2) := by
  have small := quartersBelow_le m q
  have unfolded : lowerEnd m q = scaled (4 * m - quartersBelow m q) 2 (q - 2) := rfl
  rw [unfolded, rational_scaled, Nat.cast_sub (by omega)]
  push_cast
  rfl

private theorem rational_upperEnd (m : Nat) (q : Int) :
    rational (upperEnd m q) = (4 * m + 2) * (2 : ℚ) ^ (q - 2) := by
  rw [upperEnd, rational_scaled]
  push_cast
  rfl

/-- A decimal reads back as a number exactly where it lies in the interval of the number. -/
theorem Decimal.readsBack_iff {decimal : Decimal} {m : Nat} {q : Int} (positive : 0 < m) :
    decimal.readsBack m q ↔ Within m q (decimal.coefficient * (10 : ℚ) ^ decimal.scale) := by
  have low : 0 < (lowerEnd m q).2 := scaled_denominator_pos (by omega) _ _
  have high : 0 < (upperEnd m q).2 := scaled_denominator_pos (by omega) _ _
  have middle := scaled_denominator_pos (by omega : 0 < 10) decimal.coefficient decimal.scale
  have value := rational_scaled decimal.coefficient 10 decimal.scale
  push_cast at value
  rw [Decimal.readsBack, ← value]
  split
  · rename_i even
    rw [Bool.and_eq_true, atMost_iff low middle, atMost_iff middle high,
      rational_lowerEnd q positive, rational_upperEnd]
    exact ⟨fun bounds => ⟨bounds.1, bounds.2, fun odd => by omega⟩,
      fun within => ⟨within.lower, within.upper⟩⟩
  · rename_i odd
    rw [Bool.and_eq_true, below_iff low middle, below_iff middle high,
      rational_lowerEnd q positive, rational_upperEnd]
    exact ⟨fun bounds => ⟨bounds.1.le, bounds.2.le, fun _ => bounds⟩,
      fun within => within.inside (by omega)⟩

theorem Within.positive {m : Nat} {q : Int} {value : ℚ} (within : Within m q value)
    (positive : 0 < m) : 0 < value := by
  have small : (quartersBelow m q : ℚ) ≤ 2 := by exact_mod_cast quartersBelow_le m q
  have large : (1 : ℚ) ≤ m := by exact_mod_cast positive
  have step : (0 : ℚ) < 2 ^ (q - 2) := zpow_pos (by norm_num) _
  have lower : 0 < (4 * m - quartersBelow m q) * (2 : ℚ) ^ (q - 2) :=
    mul_pos (by linarith) step
  linarith [within.lower]

end Shortest

/-! ## Rounding -/

namespace Rounding

/-- The whole number within half of a quotient, and the even one where it is half away, is what
the quotient is rounded to. -/
private theorem halfEven_eq {numerator denominator whole : Nat} (positive : 0 < denominator)
    (lower : 2 * (denominator * whole) ≤ 2 * numerator + denominator)
    (upper : 2 * numerator ≤ 2 * (denominator * whole) + denominator)
    (even : whole % 2 = 1 → 2 * (denominator * whole) < 2 * numerator + denominator ∧
      2 * numerator < 2 * (denominator * whole) + denominator) :
    halfEven numerator denominator = whole := by
  have split := Nat.div_add_mod numerator denominator
  have rest := Nat.mod_lt numerator positive
  have floor : numerator / denominator = whole ∨ numerator / denominator + 1 = whole := by
    have atMost : numerator / denominator < whole + 1 := by
      rw [Nat.div_lt_iff_lt_mul positive, Nat.succ_mul, Nat.mul_comm]
      omega
    have atLeast : whole < numerator / denominator + 2 := by
      by_contra tooLarge
      have product := Nat.mul_le_mul_left denominator (not_lt.1 tooLarge)
      rw [Nat.mul_add] at product
      omega
    omega
  simp only [halfEven]
  rcases floor with equal | equal
  · subst equal
    split
    · rfl
    · rename_i notBelow
      split
      · omega
      · rename_i notAbove
        by_contra odd
        have parity : numerator / denominator % 2 = 1 := by omega
        have strict := even parity
        omega
  · subst equal
    rw [Nat.mul_add] at lower upper even
    split
    · omega
    · split
      · rfl
      · by_contra odd
        have parity : (numerator / denominator + 1) % 2 = 1 := by omega
        have strict := even parity
        omega

private theorem halfEven_of_rational {quotient : Nat × Nat} {whole : Nat}
    (positive : 0 < quotient.2) (lower : (whole : ℚ) - 1 / 2 ≤ rational quotient)
    (upper : rational quotient ≤ (whole : ℚ) + 1 / 2)
    (even : whole % 2 = 1 → (whole : ℚ) - 1 / 2 < rational quotient ∧
      rational quotient < (whole : ℚ) + 1 / 2) :
    halfEven quotient.1 quotient.2 = whole := by
  have denominator : (0 : ℚ) < quotient.2 := by exact_mod_cast positive
  rw [rational] at lower upper even
  rw [le_div_iff₀ denominator] at lower
  rw [div_le_iff₀ denominator] at upper
  rw [lt_div_iff₀ denominator, div_lt_iff₀ denominator] at even
  apply halfEven_eq positive
  · have scaled : 2 * ((quotient.2 : ℚ) * whole) ≤ 2 * quotient.1 + quotient.2 := by linarith
    exact_mod_cast scaled
  · have scaled : 2 * (quotient.1 : ℚ) ≤ 2 * (quotient.2 * whole) + quotient.2 := by linarith
    exact_mod_cast scaled
  · intro odd
    have strict := even odd
    constructor
    · have scaled : 2 * ((quotient.2 : ℚ) * whole) < 2 * quotient.1 + quotient.2 := by
        linarith
      exact_mod_cast scaled
    · have scaled : 2 * (quotient.1 : ℚ) < 2 * (quotient.2 * whole) + quotient.2 := by
        linarith
      exact_mod_cast scaled

end Rounding

/-! ## The nearest number -/

namespace Binary64

theorem negative_iff (number : Binary64) : number.negative ↔ 2 ^ 63 ≤ number.bits.toNat := by
  rw [negative, BitVec.msb_eq_decide, decide_eq_true_iff]

theorem exponentField_eq (number : Binary64) :
    number.exponentField = number.bits.toNat / 2 ^ 52 % 2 ^ 11 := by
  rw [exponentField, BitVec.extractLsb'_toNat, Nat.shiftRight_eq_div_pow]

theorem fraction_eq (number : Binary64) : number.fraction = number.bits.toNat % 2 ^ 52 := by
  rw [fraction, BitVec.extractLsb'_toNat, Nat.shiftRight_zero]

theorem significand_eq (number : Binary64) :
    number.significand =
      if number.exponentField = 0 then number.fraction else number.fraction + 2 ^ 52 :=
  rfl

def dividedBy (numerator denominator : Nat) (power : Int) : Nat × Nat :=
  if 0 ≤ power then (numerator, denominator <<< power.toNat)
  else (numerator <<< power.natAbs, denominator)

private theorem dividedBy_denominator_pos {denominator : Nat} (positive : 0 < denominator)
    (numerator : Nat) (power : Int) : 0 < (dividedBy numerator denominator power).2 := by
  rw [dividedBy]
  split
  · rw [Nat.shiftLeft_eq]
    exact Nat.mul_pos positive (Nat.pow_pos (by omega))
  · exact positive

private theorem rational_dividedBy (numerator denominator : Nat) (power : Int) :
    rational (dividedBy numerator denominator power) =
      rational (numerator, denominator) / (2 : ℚ) ^ power := by
  unfold dividedBy rational
  split
  · rename_i nonnegative
    rcases Int.eq_ofNat_of_zero_le nonnegative with ⟨count, rfl⟩
    simp [Nat.shiftLeft_eq, div_div]
  · rename_i negative
    have counted : ∃ count : Nat, power = -count := ⟨power.natAbs, by omega⟩
    rcases counted with ⟨count, rfl⟩
    simp [Nat.shiftLeft_eq, div_mul_eq_mul_div]

/-- A quotient lies between powers of two told by the lengths of its parts. -/
private theorem rational_bounds {numerator denominator : Nat} (above : numerator ≠ 0)
    (positive : denominator ≠ 0) :
    (2 : ℚ) ^ ((Nat.log2 numerator : Int) - Nat.log2 denominator - 1) <
        rational (numerator, denominator) ∧
      rational (numerator, denominator) <
        (2 : ℚ) ^ ((Nat.log2 numerator : Int) - Nat.log2 denominator + 1) := by
  have bottom : (2 : ℚ) ^ Nat.log2 denominator ≤ denominator := by
    exact_mod_cast Nat.log2_self_le positive
  have bottomAbove : (denominator : ℚ) < 2 ^ (Nat.log2 denominator + 1) := by
    exact_mod_cast Nat.lt_log2_self
  have top : (2 : ℚ) ^ Nat.log2 numerator ≤ numerator := by
    exact_mod_cast Nat.log2_self_le above
  have topAbove : (numerator : ℚ) < 2 ^ (Nat.log2 numerator + 1) := by
    exact_mod_cast Nat.lt_log2_self
  have divisor : (0 : ℚ) < denominator := lt_of_lt_of_le (by positivity) bottom
  generalize Nat.log2 numerator = first at *
  generalize Nat.log2 denominator = second at *
  have two : (2 : ℚ) ≠ 0 := by norm_num
  have positiveTop : (0 : ℚ) < 2 ^ first := by positivity
  have positiveBottom : (0 : ℚ) < 2 ^ second := by positivity
  rw [rational]
  constructor
  · rw [lt_div_iff₀ divisor]
    calc (2 : ℚ) ^ ((first : Int) - second - 1) * denominator
        < (2 : ℚ) ^ ((first : Int) - second - 1) * 2 ^ (second + 1) :=
          mul_lt_mul_of_pos_left bottomAbove (zpow_pos (by norm_num) _)
      _ = 2 ^ first := by
          rw [← zpow_natCast, ← zpow_natCast, ← zpow_add₀ two]
          congr 1
          push_cast
          ring
      _ ≤ numerator := top
  · rw [div_lt_iff₀ divisor]
    calc (numerator : ℚ) < 2 ^ (first + 1) := topAbove
      _ = (2 : ℚ) ^ ((first : Int) - second + 1) * 2 ^ second := by
          rw [← zpow_natCast, ← zpow_natCast, ← zpow_add₀ two]
          congr 1
          push_cast
          ring
      _ ≤ (2 : ℚ) ^ ((first : Int) - second + 1) * denominator :=
          mul_le_mul_of_nonneg_left bottom (zpow_pos (by norm_num) _).le

/-- The pattern that scaling by a power of two and rounding gives. -/
def roundedAt (numerator denominator : Nat) (power : Int) : Binary64 :=
  let scaled := dividedBy numerator denominator power
  ⟨BitVec.ofNat 64 (min ((power + 1074).toNat <<< 52 + Rounding.halfEven scaled.1 scaled.2)
    (2047 <<< 52))⟩

/-- The whole part of a scaled quotient tells whether the quotient lies below a power of two. -/
private theorem dividedBy_lt_iff {numerator denominator : Nat} (positive : denominator ≠ 0)
    (power : Int) :
    (dividedBy numerator denominator power).1 / (dividedBy numerator denominator power).2 < 2 ^ 52 ↔
      rational (numerator, denominator) < (2 : ℚ) ^ (power + 52) := by
  have scaledPositive :=
    dividedBy_denominator_pos (Nat.pos_of_ne_zero positive) numerator power
  have scaledDenominator : (0 : ℚ) < (dividedBy numerator denominator power).2 := by
    exact_mod_cast scaledPositive
  have step : (0 : ℚ) < 2 ^ power := zpow_pos (by norm_num) _
  have split : (2 : ℚ) ^ (power + 52) = 2 ^ 52 * 2 ^ power := by
    rw [zpow_add₀ (by norm_num), mul_comm]
    norm_num
  rw [Nat.div_lt_iff_lt_mul scaledPositive, split, ← div_lt_iff₀ step, ← rational_dividedBy,
    rational, div_lt_iff₀ scaledDenominator]
  exact_mod_cast Iff.rfl

/-- The nearest number is found at the power of two that leaves 53 binary digits before the
point, or at the least power there is. -/
private theorem nearest_eq_roundedAt {numerator denominator : Nat} (power : Int)
    (positive : denominator ≠ 0)
    (lower : (2 : ℚ) ^ (power + 52) ≤ rational (numerator, denominator))
    (upper : rational (numerator, denominator) < (2 : ℚ) ^ (power + 53)) :
    nearest numerator denominator = roundedAt numerator denominator (max (-1074) power) := by
  have above : numerator ≠ 0 := by
    intro same
    subst same
    have positivePower : (0 : ℚ) < 2 ^ (power + 52) := zpow_pos (by norm_num) _
    simp only [rational, Nat.cast_zero, zero_div] at lower
    linarith
  rcases rational_bounds above positive with ⟨lowGuess, highGuess⟩
  have unfolded : nearest numerator denominator =
      let guess : Int := (Nat.log2 numerator : Int) - Nat.log2 denominator - 52
      let exact := dividedBy numerator denominator guess
      roundedAt numerator denominator
        (max (-1074) (if exact.1 / exact.2 < 1 <<< 52 then guess - 1 else guess)) := by
    rw [nearest, if_neg above]
    rfl
  rw [unfolded, Nat.one_shiftLeft]
  generalize equal : (Nat.log2 numerator : Int) - Nat.log2 denominator - 52 = guess
  rw [show (Nat.log2 numerator : Int) - Nat.log2 denominator - 1 = guess + 51 by omega]
    at lowGuess
  rw [show (Nat.log2 numerator : Int) - Nat.log2 denominator + 1 = guess + 53 by omega]
    at highGuess
  -- The power is the guess or one less, and the whole part at the guess tells which.
  have base : (1 : ℚ) < 2 := by norm_num
  have first := (zpow_lt_zpow_iff_right₀ base).1 (lowGuess.trans upper)
  have second := (zpow_lt_zpow_iff_right₀ base).1 (lower.trans_lt highGuess)
  have found : (if (dividedBy numerator denominator guess).1 /
      (dividedBy numerator denominator guess).2 < 2 ^ 52 then guess - 1 else guess) = power := by
    split
    · rename_i below
      have third := (zpow_lt_zpow_iff_right₀ base).1
        (lower.trans_lt ((dividedBy_lt_iff positive guess).1 below))
      omega
    · rename_i notBelow
      have least := not_lt.1 (mt (dividedBy_lt_iff positive guess).2 notBelow)
      have third := (zpow_lt_zpow_iff_right₀ base).1 (least.trans_lt upper)
      omega
  simp only [found]

/-! ## Intervals and the nearest number -/

def ofCanonical (m : Nat) (q : Int) : Binary64 :=
  ⟨BitVec.ofNat 64 ((q + 1074).toNat * 2 ^ 52 + m)⟩

variable {m : Nat} {q : Int} {numerator denominator : Nat}

private theorem within_steps {value : ℚ} (within : Shortest.Within m q value) :
    (m : ℚ) - Shortest.quartersBelow m q / 4 ≤ value / 2 ^ q ∧ value / 2 ^ q ≤ (m : ℚ) + 1 / 2 ∧
      (m % 2 = 1 → (m : ℚ) - Shortest.quartersBelow m q / 4 < value / 2 ^ q ∧
        value / 2 ^ q < (m : ℚ) + 1 / 2) := by
  have step : (0 : ℚ) < 2 ^ q := zpow_pos (by norm_num) _
  have quarter : (2 : ℚ) ^ (q - 2) = 2 ^ q / 4 := by
    rw [zpow_sub₀ (by norm_num)]
    norm_num
  have lower := within.lower
  have upper := within.upper
  have inside := within.inside
  rw [quarter] at lower upper inside
  rw [le_div_iff₀ step, div_le_iff₀ step, lt_div_iff₀ step, div_lt_iff₀ step]
  refine ⟨by linarith, by linarith, fun odd => ?_⟩
  have strict := inside odd
  exact ⟨by linarith, by linarith⟩

/-- Rounding at the power of a number gives the number for every value in its interval. -/
private theorem roundedAt_of_within (canonical : Shortest.Canonical m q)
    (positive : denominator ≠ 0)
    (within : Shortest.Within m q (rational (numerator, denominator))) :
    roundedAt numerator denominator q = ofCanonical m q := by
  rcases within_steps within with ⟨lower, upper, strict⟩
  have half : (Shortest.quartersBelow m q : ℚ) ≤ 2 := by
    exact_mod_cast Shortest.quartersBelow_le m q
  have rounded : Rounding.halfEven (dividedBy numerator denominator q).1
      (dividedBy numerator denominator q).2 = m := by
    apply Rounding.halfEven_of_rational
      (dividedBy_denominator_pos (Nat.pos_of_ne_zero positive) numerator q)
    · rw [rational_dividedBy]
      linarith
    · rw [rational_dividedBy]
      exact upper
    · intro odd
      rw [rational_dividedBy]
      exact ⟨by linarith [(strict odd).1], (strict odd).2⟩
  have small : (q + 1074).toNat * 2 ^ 52 + m ≤ 2047 * 2 ^ 52 := by
    have range := canonical.upper
    have significand := canonical.lt
    omega
  simp only [roundedAt, rounded, ofCanonical, Nat.shiftLeft_eq, Nat.min_eq_left small]

/-- Just below the least significand of a power, the next lower power rounds up to it. -/
private theorem roundedAt_below (canonical : Shortest.Canonical (2 ^ 52) q) (power : -1074 < q)
    (positive : denominator ≠ 0)
    (lower : (2 : ℚ) ^ 52 - 1 / 4 ≤ rational (numerator, denominator) / 2 ^ q)
    (upper : rational (numerator, denominator) / 2 ^ q < (2 : ℚ) ^ 52) :
    roundedAt numerator denominator (q - 1) = ofCanonical (2 ^ 52) q := by
  have doubled : rational (dividedBy numerator denominator (q - 1)) =
      2 * (rational (numerator, denominator) / 2 ^ q) := by
    have step : (2 : ℚ) ^ q ≠ 0 := (zpow_pos (by norm_num) _).ne'
    rw [rational_dividedBy, zpow_sub₀ (by norm_num)]
    field_simp
  have rounded : Rounding.halfEven (dividedBy numerator denominator (q - 1)).1
      (dividedBy numerator denominator (q - 1)).2 = 2 ^ 53 := by
    apply Rounding.halfEven_of_rational
      (dividedBy_denominator_pos (Nat.pos_of_ne_zero positive) numerator (q - 1))
    · rw [doubled]
      push_cast
      linarith
    · rw [doubled]
      push_cast
      linarith
    · intro odd
      exact absurd odd (by omega)
  have range := canonical.upper
  have small : (q + 1074).toNat * 2 ^ 52 + 2 ^ 52 ≤ 2047 * 2 ^ 52 := by omega
  have pattern : (q - 1 + 1074).toNat * 2 ^ 52 + 2 ^ 53 = (q + 1074).toNat * 2 ^ 52 + 2 ^ 52 := by
    omega
  simp only [roundedAt, rounded, ofCanonical, Nat.shiftLeft_eq, pattern, Nat.min_eq_left small]

/-- The nearest number to a value in the interval of a number is that number. -/
theorem nearest_of_within (canonical : Shortest.Canonical m q) (positive : denominator ≠ 0)
    (within : Shortest.Within m q (rational (numerator, denominator))) :
    nearest numerator denominator = ofCanonical m q := by
  have rounded := roundedAt_of_within canonical positive within
  have value := within.positive canonical.positive
  rcases within_steps within with ⟨lower, upper, -⟩
  have half : (Shortest.quartersBelow m q : ℚ) ≤ 2 := by
    exact_mod_cast Shortest.quartersBelow_le m q
  generalize equal : rational (numerator, denominator) = quotient at *
  have step : (0 : ℚ) < 2 ^ q := zpow_pos (by norm_num) _
  have powers (extra : Nat) : (2 : ℚ) ^ (q + extra) = 2 ^ extra * 2 ^ q := by
    rw [zpow_add₀ (by norm_num), zpow_natCast, mul_comm]
  have range := canonical.lower
  have significand : (m : ℚ) + 1 ≤ 2 ^ 53 := by exact_mod_cast canonical.lt
  by_cases normal : (2 : ℚ) ^ 52 ≤ quotient / 2 ^ q
  · -- The quotient has 53 binary digits before the point at the power of the number.
    rw [nearest_eq_roundedAt q positive, max_eq_right range, rounded]
    · rw [equal, show q + 52 = q + (52 : Nat) from rfl, powers]
      exact (le_div_iff₀ step).1 normal
    · rw [equal, show q + 53 = q + (53 : Nat) from rfl, powers]
      exact (div_lt_iff₀ step).1 (by linarith)
  · have below := not_le.1 normal
    by_cases least : q = -1074
    · -- It has fewer, but there is no lower power to round at.
      rcases exists_mem_Ico_zpow value (by norm_num : (1 : ℚ) < 2) with ⟨power, first, second⟩
      have bound : quotient < 2 ^ (q + (52 : Nat)) := by
        rw [powers]
        exact (div_lt_iff₀ step).1 below
      have small := (zpow_lt_zpow_iff_right₀ (by norm_num : (1 : ℚ) < 2)).1 (first.trans_lt bound)
      push_cast at small
      rw [nearest_eq_roundedAt (power - 52) positive, max_eq_left (by omega), ← least,
        rounded]
      · rw [equal, sub_add_cancel]
        exact first
      · rw [equal, show power - 52 + 53 = power + 1 by ring]
        exact second
    · -- It lies just below the least significand of its power, and is rounded at the power below.
      have large : 2 ^ 52 ≤ m := by
        by_contra small
        exact least (canonical.subnormal (not_le.1 small))
      have exact : m = 2 ^ 52 := by
        by_contra different
        have more : (2 : ℚ) ^ 52 + 1 ≤ m := by
          exact_mod_cast Nat.lt_of_le_of_ne large (Ne.symm different)
        linarith
      subst exact
      have power : -1074 < q := by omega
      have reach : Shortest.quartersBelow (2 ^ 52) q = 1 := if_pos ⟨rfl, power⟩
      rw [reach] at lower
      push_cast at lower
      rw [nearest_eq_roundedAt (q - 1) positive, max_eq_right (by omega)]
      · subst equal
        exact roundedAt_below canonical power positive (by linarith) below
      · rw [equal, show q - 1 + 52 = q + (51 : Nat) by push_cast; ring, powers]
        exact (le_div_iff₀ step).1 (by linarith)
      · rw [equal, show q - 1 + 53 = q + (52 : Nat) by push_cast; ring, powers]
        exact (div_lt_iff₀ step).1 below

end Binary64

end PickleTrial
