import PickleTrial.Proofs.Number.Narrowing
import PickleTrial.Proofs.Number.Value

/-! Numbers of 32 bits in 64 bits. An infinity and a NaN stay one, and every other number stands
for the same rational. -/

namespace PickleTrial

namespace Binary64

private theorem value_eq (number : Binary64) :
    number.value =
      (if number.negative then -1 else 1) * (number.significand * (2 : ℚ) ^ number.exponent) := by
  rw [value, rational_quotient]
  split
  · rw [neg_one_mul]
  · rw [one_mul]

private theorem value_ofFields (negative : Bool) {field fraction : Nat} (narrow : field < 2 ^ 11)
    (short : fraction < 2 ^ 52) :
    (ofFields negative field fraction).value =
      (if negative then -1 else 1) *
        ((if field = 0 then fraction else fraction + 2 ^ 52 : Nat) *
          (2 : ℚ) ^ ((max field 1 : Nat) - 1075 : Int)) := by
  rw [value_eq, significand_eq, exponent, negative_ofFields negative narrow short,
    exponentField_ofFields negative narrow short, fraction_ofFields negative narrow short]

end Binary64

namespace Binary32

def isInfinite (number : Binary32) : Bool :=
  number.exponentField = 255 ∧ number.fraction = 0

/-- The whole number that a finite pattern scales by a power of two. -/
def significand (number : Binary32) : Nat :=
  if number.exponentField = 0 then number.fraction else number.fraction + 2 ^ 23

/-- The power of two by which the significand of a finite pattern is scaled. -/
def exponent (number : Binary32) : Int :=
  (max number.exponentField 1 : Nat) - 150

/-- The rational that a finite pattern stands for. -/
def value (number : Binary32) : ℚ :=
  (if number.negative then -1 else 1) * (number.significand * (2 : ℚ) ^ number.exponent)

/-- A number in 64 bits is one in 32 bits. -/
structure IsWidened (number : Binary32) (wide : Binary64) : Prop where
  sign : wide.negative = number.negative
  nan : wide.isNaN = number.isNaN
  infinite : wide.isInfinite = number.isInfinite
  finite : wide.exponentField ≠ 2047 ↔ number.exponentField ≠ 255
  value : number.exponentField ≠ 255 → wide.value = number.value

private theorem scaled_eq {wide narrow steps : Nat} {power : Int}
    (shifted : wide = narrow * 2 ^ steps) :
    (wide : ℚ) * 2 ^ power = narrow * 2 ^ (power + steps) := by
  rw [shifted, zpow_add₀ (by norm_num), zpow_natCast]
  push_cast
  ring

/-- The fields of a widened number. -/
private theorem exists_fields_widen (number : Binary32) :
    ∃ field fraction, field < 2 ^ 11 ∧ fraction < 2 ^ 52 ∧
      number.widen = .ofFields number.negative field fraction ∧
      (field = 2047 ↔ number.exponentField = 255) ∧
      (number.exponentField = 255 → fraction = number.fraction * 2 ^ 29) ∧
      (number.exponentField ≠ 255 →
        (if field = 0 then fraction else fraction + 2 ^ 52 : Nat) *
          (2 : ℚ) ^ ((max field 1 : Nat) - 1075 : Int) =
          number.significand * (2 : ℚ) ^ number.exponent) := by
  have narrow : number.exponentField < 2 ^ 8 := BitVec.isLt _
  have short : number.fraction < 2 ^ 23 := BitVec.isLt _
  rw [widen_eq, significand, exponent]
  by_cases special : number.exponentField = 255
  · refine ⟨2047, number.fraction * 2 ^ 29, by omega, by omega, ?_, by omega, fun _ => rfl,
      fun finite => absurd special finite⟩
    rw [if_pos special]
  by_cases normal : number.exponentField ≠ 0
  · refine ⟨number.exponentField + 896, number.fraction * 2 ^ 29, by omega, by omega, ?_, by omega,
      fun infinite => absurd infinite special, fun _ => ?_⟩
    · rw [if_neg special, if_pos normal]
    · rw [if_neg normal, if_neg (by omega)]
      have power : ((max number.exponentField 1 : Nat) - 150 : Int) =
          (max (number.exponentField + 896) 1 : Nat) - 1075 + (29 : Nat) := by omega
      rw [power]
      exact scaled_eq (by omega)
  have subnormal : number.exponentField = 0 := not_not.1 normal
  by_cases zero : number.fraction = 0
  · refine ⟨0, 0, by omega, by omega, ?_, by omega, fun infinite => absurd infinite special,
      fun _ => ?_⟩
    · rw [if_neg special, if_neg normal, if_pos zero]
    · rw [if_pos rfl, if_pos subnormal, zero, Nat.cast_zero, zero_mul, zero_mul]
  · -- A subnormal number is wide enough for a normal one: its leading bit becomes the hidden one.
    rcases shifted_lt zero short with ⟨few, room, whole⟩
    refine ⟨number.fraction.log2 + 874, _, by omega, room, ?_, by omega,
      fun infinite => absurd infinite special, fun _ => ?_⟩
    · rw [if_neg special, if_neg normal, if_neg zero]
    · have power : ((max number.exponentField 1 : Nat) - 150 : Int) =
          (max (number.fraction.log2 + 874) 1 : Nat) - 1075 +
            (52 - number.fraction.log2 : Nat) := by omega
      rw [if_neg (by omega), if_pos subnormal, power]
      exact scaled_eq ((Nat.add_comm _ _).trans whole)

theorem isWidened_widen (number : Binary32) : number.IsWidened number.widen := by
  rcases exists_fields_widen number with
    ⟨field, fraction, narrow, short, widened, special, kept, scaled⟩
  have exponentField : number.widen.exponentField = field := by
    rw [widened, Binary64.exponentField_ofFields _ narrow short]
  refine ⟨?_, isNaN_widen number, ?_, ?_, fun finite => ?_⟩
  · rw [widened, Binary64.negative_ofFields _ narrow short]
  · rw [Binary64.isInfinite, isInfinite, exponentField, widened,
      Binary64.fraction_ofFields _ narrow short, decide_eq_decide, special]
    exact and_congr_right fun infinite => by rw [kept infinite]; omega
  · rw [exponentField]
    exact not_congr special
  · rw [widened, Binary64.value_ofFields _ narrow short, scaled finite, value]

end Binary32

end PickleTrial
