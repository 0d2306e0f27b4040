import PickleTrial.Proofs.Number.Nearest

/-! The shortest decimal of a number reads back as the number. Among the decimals with seventeen
digits one of the two neighbours of a number is always in its interval, so some number of digits
is found. It is the least one: a decimal in the interval has one of the two neighbours with as many
digits between itself and the number. -/

namespace PickleTrial.Shortest

private theorem pow_length_toDigits_le {value : Nat} (positive : 0 < value) :
    10 ^ ((Nat.toDigits 10 value).length - 1) ≤ value := by
  rcases Nat.eq_zero_or_pos ((Nat.toDigits 10 value).length - 1) with single | further
  · rw [single]
    exact positive
  · have tooMany : ¬(Nat.toDigits 10 value).length ≤ (Nat.toDigits 10 value).length - 1 := by
      omega
    rw [Nat.length_toDigits_le_iff (by omega) further] at tooMany
    exact Nat.not_lt.1 tooMany

theorem lt_pow_length_toDigits (value : Nat) :
    value < 10 ^ (Nat.toDigits 10 value).length :=
  (Nat.length_toDigits_le_iff (by omega) Nat.length_toDigits_pos).1 le_rfl

/-- A positive quotient is at least the power of ten of its first digit. -/
private theorem pow_leadingPower_le {value : Nat × Nat} (numerator : 0 < value.1)
    (denominator : 0 < value.2) : (10 : ℚ) ^ leadingPower value ≤ rational value := by
  have positive : (0 : ℚ) < value.2 := by exact_mod_cast denominator
  rw [leadingPower, rational]
  split
  · rename_i atLeastOne
    have whole : 0 < value.1 / value.2 := Nat.div_pos atLeastOne denominator
    have product := (Nat.le_div_iff_mul_le denominator).1 (pow_length_toDigits_le whole)
    have some : 0 < (Nat.toDigits 10 (value.1 / value.2)).length := Nat.length_toDigits_pos
    rw [← Nat.cast_pred some, zpow_natCast, le_div_iff₀ positive]
    exact_mod_cast product
  · have bound := lt_pow_length_toDigits ((value.2 - 1) / value.1)
    have product := (Nat.div_lt_iff_lt_mul numerator).1 bound
    have whole : value.2 ≤ 10 ^ (Nat.toDigits 10 ((value.2 - 1) / value.1)).length * value.1 := by
      omega
    generalize (Nat.toDigits 10 ((value.2 - 1) / value.1)).length = length at whole ⊢
    have scaled : (value.2 : ℚ) ≤ 10 ^ length * value.1 := by exact_mod_cast whole
    rw [zpow_neg, zpow_natCast, le_div_iff₀ positive, inv_mul_le_iff₀ (by positivity)]
    exact scaled

/-- A positive quotient is less than the next power of ten. -/
private theorem lt_pow_leadingPower_add_one {value : Nat × Nat} (numerator : 0 < value.1)
    (denominator : 0 < value.2) : rational value < (10 : ℚ) ^ (leadingPower value + 1) := by
  have positive : (0 : ℚ) < value.2 := by exact_mod_cast denominator
  rw [leadingPower, rational]
  split
  · have product :=
      (Nat.div_lt_iff_lt_mul denominator).1 (lt_pow_length_toDigits (value.1 / value.2))
    rw [sub_add_cancel, zpow_natCast, div_lt_iff₀ positive]
    exact_mod_cast product
  · rename_i belowOne
    have whole : 0 < (value.2 - 1) / value.1 := Nat.div_pos (by omega) numerator
    have product := (Nat.le_div_iff_mul_le numerator).1 (pow_length_toDigits_le whole)
    have some : 0 < (Nat.toDigits 10 ((value.2 - 1) / value.1)).length := Nat.length_toDigits_pos
    generalize (Nat.toDigits 10 ((value.2 - 1) / value.1)).length = length at product some ⊢
    have power : -(length : Int) + 1 = -((length - 1 : Nat) : Int) := by omega
    have scaled : (10 : ℚ) ^ (length - 1) * value.1 < value.2 := by
      have whole : 10 ^ (length - 1) * value.1 < value.2 := by omega
      exact_mod_cast whole
    rw [power, zpow_neg, zpow_natCast, div_lt_iff₀ positive, lt_inv_mul_iff₀ (by positivity)]
    exact scaled

theorem Within.coefficient_ne_zero {m coefficient : Nat} {q scale : Int}
    (within : Within m q (coefficient * 10 ^ scale)) (positive : 0 < m) : coefficient ≠ 0 := by
  rintro rfl
  have nonzero := within.positive positive
  rw [Nat.cast_zero, zero_mul] at nonzero
  exact lt_irrefl _ nonzero

private theorem Within.of_lt {m : Nat} {q : Int} {value : ℚ}
    (lower : (4 * m - quartersBelow m q) * (2 : ℚ) ^ (q - 2) < value)
    (upper : value < (4 * m + 2) * (2 : ℚ) ^ (q - 2)) : Within m q value :=
  ⟨lower.le, upper.le, fun _ => ⟨lower, upper⟩⟩

/-- Of two neighbours on a grid that is fine beside a number, one is in its interval. -/
private theorem within_or_within {m : Nat} {q : Int} (canonical : Canonical m q) {low step : ℚ}
    (below : low ≤ m * 2 ^ q) (above : m * 2 ^ q < low + step)
    (fine : step * 10 ^ 16 ≤ m * 2 ^ q) : Within m q low ∨ Within m q (low + step) := by
  generalize equal : (2 : ℚ) ^ (q - 2) = unit
  have positive : 0 < unit := equal ▸ zpow_pos (by norm_num) _
  have quarter : (2 : ℚ) ^ q = 4 * unit := by
    rw [← equal, zpow_sub₀ (by norm_num)]
    ring
  rw [quarter] at below above fine
  have reach : (1 : ℚ) ≤ quartersBelow m q := by
    rw [quartersBelow]
    split <;> norm_num
  have narrow : (4 * m : ℚ) < (quartersBelow m q + 2) * 10 ^ 16 := by
    rw [quartersBelow]
    split
    · rename_i least
      rw [least.1]
      norm_num
    · have bound : (m : ℚ) < 2 ^ 53 := by exact_mod_cast canonical.lt
      push_cast
      linarith
  have scaledReach := mul_le_mul_of_nonneg_right reach positive.le
  have scaledNarrow := mul_lt_mul_of_pos_right narrow positive
  by_cases inside : (4 * m - quartersBelow m q) * unit < low
  · left
    apply Within.of_lt
    · rw [equal]
      exact inside
    · rw [equal]
      linarith
  · right
    apply Within.of_lt
    · rw [equal]
      linarith
    · rw [equal]
      linarith

/-! ## Finding the decimal -/

private theorem readsBack_of_withDigits? {m : Nat} {q : Int} {digits : Nat} {found : Decimal}
    (some : withDigits? m q digits = some found) : found.readsBack m q := by
  simp only [withDigits?] at some
  split at some
  · cases some
  · cases some
    assumption
  · cases some
    assumption
  · split at some <;> cases some <;> assumption

private theorem floor_bounds {value unit : Nat × Nat} (denominator : 0 < value.2)
    (unitNumerator : 0 < unit.1) (unitDenominator : 0 < unit.2) :
    (value.1 * unit.2 / (value.2 * unit.1) : Nat) * rational unit ≤ rational value ∧
      rational value < ((value.1 * unit.2 / (value.2 * unit.1) + 1 : Nat) : ℚ) * rational unit := by
  have product : 0 < value.2 * unit.1 := Nat.mul_pos denominator unitNumerator
  have bottom : (0 : ℚ) < value.2 := by exact_mod_cast denominator
  have unitBottom : (0 : ℚ) < unit.2 := by exact_mod_cast unitDenominator
  unfold rational
  constructor
  · have floor := Nat.div_mul_le_self (value.1 * unit.2) (value.2 * unit.1)
    rw [← mul_div_assoc, div_le_div_iff₀ unitBottom bottom]
    calc _ = (((value.1 * unit.2 / (value.2 * unit.1)) * (value.2 * unit.1) : Nat) : ℚ) := by
          push_cast
          ring
      _ ≤ ((value.1 * unit.2 : Nat) : ℚ) := by exact_mod_cast floor
      _ = _ := by push_cast; ring
  · have ceiling : value.1 * unit.2 <
        (value.1 * unit.2 / (value.2 * unit.1) + 1) * (value.2 * unit.1) :=
      (Nat.div_lt_iff_lt_mul product).1 (Nat.lt_succ_self _)
    rw [← mul_div_assoc, div_lt_div_iff₀ bottom unitBottom]
    calc _ = ((value.1 * unit.2 : Nat) : ℚ) := by push_cast; ring
      _ < (((value.1 * unit.2 / (value.2 * unit.1) + 1) * (value.2 * unit.1) : Nat) : ℚ) := by
          exact_mod_cast ceiling
      _ = _ := by push_cast; ring

private theorem scaled_numerator_pos {value base : Nat} (positive : 0 < value)
    (basePositive : 0 < base) (power : Int) : 0 < (scaled value base power).1 := by
  rw [scaled]
  split
  · exact Nat.mul_pos positive (Nat.pow_pos basePositive)
  · exact positive

/-- Where no decimal is found, neither neighbour of the number is in its interval. -/
private theorem not_within_of_withDigits?_eq_none {m : Nat} {q : Int} (positive : 0 < m)
    {digits : Nat} (missing : withDigits? m q digits = none) :
    let value := scaled m 2 q
    let scale := leadingPower value - (digits : Int) + 1
    let unit := scaled 1 10 scale
    let low := value.1 * unit.2 / (value.2 * unit.1)
    ¬Within m q (low * 10 ^ scale) ∧ ¬Within m q (((low + 1 : Nat) : ℚ) * 10 ^ scale) := by
  have outside {coefficient : Nat} {scale : Int}
      (fails : Decimal.readsBack ⟨coefficient, scale⟩ m q = false) :
      ¬Within m q (coefficient * 10 ^ scale) := by
    intro within
    have reads : Decimal.readsBack ⟨coefficient, scale⟩ m q :=
      (Decimal.readsBack_iff positive).2 within
    rw [fails] at reads
    cases reads
  simp only [withDigits?] at missing ⊢
  split at missing
  · exact ⟨outside (by assumption), outside (by assumption)⟩
  · cases missing
  · cases missing
  · split at missing <;> cases missing

/-- The points beside a number on the grid of so many digits, and the powers of ten around it. -/
private theorem neighbors {m : Nat} (positive : 0 < m) (q : Int) (digits : Nat) :
    let value := scaled m 2 q
    let scale := leadingPower value - (digits : Int) + 1
    let unit := scaled 1 10 scale
    let low := value.1 * unit.2 / (value.2 * unit.1)
    (10 : ℚ) ^ leadingPower value ≤ m * 2 ^ q ∧ (m : ℚ) * 2 ^ q < 10 ^ (leadingPower value + 1) ∧
      (low : ℚ) * 10 ^ scale ≤ m * 2 ^ q ∧
      (m : ℚ) * 2 ^ q < ((low + 1 : Nat) : ℚ) * 10 ^ scale := by
  have numerator := scaled_numerator_pos positive (by omega : 0 < 2) q
  have denominator : 0 < (scaled m 2 q).2 := scaled_denominator_pos (by omega) m q
  have value : rational (scaled m 2 q) = m * (2 : ℚ) ^ q := by
    rw [rational_scaled]
    norm_num
  have lowest := pow_leadingPower_le numerator denominator
  have highest := lt_pow_leadingPower_add_one numerator denominator
  have unit (scale : Int) : rational (scaled 1 10 scale) = (10 : ℚ) ^ scale := by
    rw [rational_scaled]
    norm_num
  have bounds (scale : Int) := floor_bounds denominator
    (scaled_numerator_pos (by omega : 0 < 1) (by omega : 0 < 10) scale)
    (scaled_denominator_pos (by omega : 0 < 10) 1 scale)
  simp only [unit, value] at bounds lowest highest
  exact ⟨lowest, highest, bounds _⟩

/-- Seventeen digits always suffice. -/
private theorem withDigits?_seventeen {m : Nat} {q : Int} (canonical : Canonical m q) :
    withDigits? m q 17 ≠ none := by
  intro missing
  rcases not_within_of_withDigits?_eq_none canonical.positive missing with ⟨lowOutside, highOutside⟩
  rcases neighbors canonical.positive q 17 with ⟨leading, -, below, above⟩
  generalize leadingPower (scaled m 2 q) = power at *
  have scale : power - (17 : Nat) + 1 = power - 16 := by omega
  have fine : (10 : ℚ) ^ (power - 16) * 10 ^ 16 ≤ m * 2 ^ q := by
    rw [← zpow_natCast, ← zpow_add₀ (by norm_num)]
    simpa using leading
  rw [scale] at lowOutside highOutside below above
  rw [Nat.cast_succ, add_mul, one_mul] at highOutside above
  rcases within_or_within canonical below above fine with within | within
  · exact lowOutside within
  · exact highOutside within

/-! ## Fewest digits -/

section Fewest

variable {m : Nat} {q : Int}

theorem Within.between {low middle high : ℚ} (lowWithin : Within m q low)
    (highWithin : Within m q high) (above : low ≤ middle) (below : middle ≤ high) :
    Within m q middle where
  lower := lowWithin.lower.trans above
  upper := below.trans highWithin.upper
  inside odd :=
    ⟨(lowWithin.inside odd).1.trans_le above, below.trans_lt (highWithin.inside odd).2⟩

private theorem within_self (m : Nat) (q : Int) : Within m q (m * 2 ^ q) := by
  have unit : (0 : ℚ) < 2 ^ (q - 2) := zpow_pos (by norm_num) _
  have quarters : (m : ℚ) * 2 ^ q = 4 * m * 2 ^ (q - 2) := by
    rw [zpow_sub₀ (by norm_num)]
    ring
  have reach : (0 : ℚ) < quartersBelow m q := by
    rw [quartersBelow]
    split <;> norm_num
  rw [quarters]
  apply Within.of_lt
  · exact mul_lt_mul_of_pos_right (sub_lt_self _ reach) unit
  · exact mul_lt_mul_of_pos_right (lt_add_of_pos_right _ (by norm_num)) unit

/-- From a power of ten on, the decimals with so many digits are points of one grid. -/
private theorem exists_eq_mul_of_le {coefficient digits : Nat} {scale power : Int}
    (few : coefficient < 10 ^ digits) (large : (10 : ℚ) ^ power ≤ coefficient * 10 ^ scale) :
    ∃ steps : Nat, (coefficient : ℚ) * 10 ^ scale = steps * 10 ^ (power - digits + 1) := by
  have fine : power - digits + 1 ≤ scale := by
    by_contra coarse
    have scales : (10 : ℚ) ^ scale ≤ 10 ^ (power - digits) :=
      zpow_le_zpow_right₀ (by norm_num) (by omega)
    have coefficients : (coefficient : ℚ) < 10 ^ digits := by exact_mod_cast few
    have small : (coefficient : ℚ) * 10 ^ scale < 10 ^ power := by
      calc (coefficient : ℚ) * 10 ^ scale ≤ coefficient * 10 ^ (power - digits) := by gcongr
        _ < 10 ^ digits * 10 ^ (power - digits) :=
            mul_lt_mul_of_pos_right coefficients (zpow_pos (by norm_num) _)
        _ = 10 ^ power := by
            rw [← zpow_natCast, ← zpow_add₀ (by norm_num)]
            congr 1
            omega
    exact not_lt.2 large small
  rcases Int.le.dest fine with ⟨more, equal⟩
  refine ⟨coefficient * 10 ^ more, ?_⟩
  rw [← equal, zpow_add₀ (by norm_num), zpow_natCast]
  push_cast
  ring

/-- Where a point of a grid is in the interval of a number, one of the two points beside the number
is. -/
private theorem within_or_within_of_steps {low steps : Nat} {step : ℚ} (positive : 0 < step)
    (below : low * step ≤ m * 2 ^ q) (above : m * 2 ^ q < ((low + 1 : Nat) : ℚ) * step)
    (within : Within m q (steps * step)) :
    Within m q (low * step) ∨ Within m q (((low + 1 : Nat) : ℚ) * step) := by
  rcases Nat.lt_or_ge low steps with beyond | behind
  · right
    apply (within_self m q).between within above.le
    exact mul_le_mul_of_nonneg_right (by exact_mod_cast beyond) positive.le
  · left
    apply within.between (within_self m q) _ below
    exact mul_le_mul_of_nonneg_right (by exact_mod_cast behind) positive.le

/-- Where a decimal of so many digits is in the interval, one is found. -/
private theorem withDigits?_ne_none_of_within (positive : 0 < m) {coefficient digits : Nat}
    {scale : Int}
    (few : coefficient < 10 ^ digits) (within : Within m q (coefficient * 10 ^ scale)) :
    withDigits? m q digits ≠ none := by
  intro missing
  rcases not_within_of_withDigits?_eq_none positive missing with ⟨lowOutside, highOutside⟩
  rcases neighbors positive q digits with ⟨leading, -, below, above⟩
  generalize leadingPower (scaled m 2 q) = power at *
  have step : (0 : ℚ) < 10 ^ (power - digits + 1) := zpow_pos (by norm_num) _
  have onGrid : ∃ steps : Nat, Within m q (steps * 10 ^ (power - digits + 1)) := by
    rcases le_or_gt ((10 : ℚ) ^ power) (coefficient * 10 ^ scale) with large | small
    · rcases exists_eq_mul_of_le few large with ⟨steps, equal⟩
      exact ⟨steps, equal ▸ within⟩
    · -- The power of ten itself lies between the decimal and the number.
      have some : 1 < 10 ^ digits := by
        have nonzero := within.coefficient_ne_zero positive
        omega
      have single : ((1 : Nat) : ℚ) * 10 ^ power = 10 ^ power := by
        rw [Nat.cast_one, one_mul]
      rcases exists_eq_mul_of_le some single.ge with ⟨steps, equal⟩
      have between := within.between (within_self m q) small.le leading
      rw [← single, equal] at between
      exact ⟨steps, between⟩
  rcases onGrid with ⟨steps, onGrid⟩
  exact (within_or_within_of_steps step below above onGrid).elim lowOutside highOutside

/-- What is found has no more digits than were asked for, but that it may be the next power of
ten. -/
private theorem coefficient_le_of_withDigits? (positive : 0 < m) {digits : Nat} {found : Decimal}
    (some : withDigits? m q digits = some found) : found.coefficient ≤ 10 ^ digits := by
  rcases neighbors positive q digits with ⟨-, leading, below, -⟩
  simp only [withDigits?] at some
  generalize leadingPower (scaled m 2 q) = power at *
  generalize (scaled m 2 q).1 * (scaled 1 10 (power - digits + 1)).2 /
    ((scaled m 2 q).2 * (scaled 1 10 (power - digits + 1)).1) = low at *
  have few : low < 10 ^ digits := by
    have step : (0 : ℚ) < 10 ^ (power - digits + 1) := zpow_pos (by norm_num) _
    have powers : (10 : ℚ) ^ (power + 1) = 10 ^ digits * 10 ^ (power - digits + 1) := by
      rw [← zpow_natCast, ← zpow_add₀ (by norm_num)]
      congr 1
      omega
    have product := below.trans_lt (leading.trans_eq powers)
    exact_mod_cast lt_of_mul_lt_mul_right product step.le
  split at some
  · cases some
  · cases some
    exact few.le
  · cases some
    exact few
  · split at some <;> cases some
    · exact few.le
    · exact few

/-- The decimal of a number is the first that is found with more and more digits. -/
private theorem exists_withDigits?_eq_decimal (canonical : Canonical m q) :
    ∃ digits, 0 < digits ∧ digits ≤ 17 ∧ withDigits? m q digits = some (decimal m q) ∧
      ∀ fewer, 0 < fewer → fewer < digits → withDigits? m q fewer = none := by
  have found : ((List.range 17).findSome? fun digits => withDigits? m q (digits + 1)).isSome := by
    rw [List.findSome?_isSome_iff]
    exact ⟨16, by decide, Option.isSome_iff_ne_none.2 (withDigits?_seventeen canonical)⟩
  rcases Option.isSome_iff_exists.1 found with ⟨shortest, some⟩
  rcases List.findSome?_eq_some_iff.1 some with ⟨before, digits, after, split, here, earlier⟩
  rw [List.range_eq_range', List.range'_eq_append_iff] at split
  rcases split with ⟨count, within, rfl, rest⟩
  rcases List.range'_eq_cons_iff.1 rest.symm with ⟨first, more, -⟩
  refine ⟨digits + 1, Nat.succ_pos _, by omega, ?_, fun fewer positive less => ?_⟩
  · rw [decimal, some, here]
    rfl
  · have member : fewer - 1 ∈ List.range' 0 count := List.mem_range'_1.2 ⟨by omega, by omega⟩
    have missing := earlier (fewer - 1) member
    rwa [Nat.sub_add_cancel positive] at missing

end Fewest

/-- The shortest decimal of a number reads back as the number. -/
theorem decimal_readsBack {m : Nat} {q : Int} (canonical : Canonical m q) :
    (decimal m q).readsBack m q := by
  rcases exists_withDigits?_eq_decimal canonical with ⟨digits, -, -, found, -⟩
  exact readsBack_of_withDigits? found

/-- It has seventeen digits at most, or is the power of ten behind them, and a decimal with fewer
digits does not read back. -/
theorem exists_fewest_digits {m : Nat} {q : Int} (canonical : Canonical m q) :
    ∃ digits, 0 < digits ∧ digits ≤ 17 ∧ (decimal m q).coefficient ≤ 10 ^ digits ∧
      ∀ other : Decimal, other.readsBack m q → 10 ^ (digits - 1) ≤ other.coefficient := by
  rcases exists_withDigits?_eq_decimal canonical with ⟨digits, positive, few, found, fewest⟩
  refine ⟨digits, positive, few, coefficient_le_of_withDigits? canonical.positive found, ?_⟩
  intro other reads
  have within := (Decimal.readsBack_iff canonical.positive).1 reads
  by_contra short
  have given := withDigits?_ne_none_of_within canonical.positive (Nat.not_le.1 short) within
  rcases Nat.eq_zero_or_pos (digits - 1) with none | some
  · rw [none, Nat.pow_zero, Nat.not_le, Nat.lt_one_iff] at short
    exact within.coefficient_ne_zero canonical.positive short
  · exact given (fewest _ some (by omega))

end PickleTrial.Shortest
