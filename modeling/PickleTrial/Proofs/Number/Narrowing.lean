import PickleTrial.Proofs.Number.FloatText

/-! Numbers of 32 bits that were widened are found again. -/

namespace PickleTrial

namespace Binary64

/-! ## The fields of a pattern -/

section Fields

variable (negative : Bool) {field fraction : Nat} (narrow : field < 2 ^ 11)
  (short : fraction < 2 ^ 52)

include narrow short

private theorem toNat_ofFields :
    (ofFields negative field fraction).bits.toNat =
      (if negative then 2 ^ 63 else 0) + field * 2 ^ 52 + fraction := by
  rw [ofFields, BitVec.toNat_ofNat, Nat.one_shiftLeft, Nat.shiftLeft_eq]
  apply Nat.mod_eq_of_lt
  split <;> omega

theorem negative_ofFields : (ofFields negative field fraction).negative = negative := by
  rw [Bool.eq_iff_iff, negative_iff, toNat_ofFields negative narrow short]
  cases negative
  · simp only [Bool.false_eq_true, if_false, iff_false]
    omega
  · simp only [if_true, iff_true]
    omega

theorem exponentField_ofFields : (ofFields negative field fraction).exponentField = field := by
  rw [exponentField_eq, toNat_ofFields negative narrow short]
  split <;> omega

theorem fraction_ofFields : (ofFields negative field fraction).fraction = fraction := by
  rw [fraction_eq, toNat_ofFields negative narrow short]
  split <;> omega

end Fields

end Binary64

namespace Binary32

def isNaN (number : Binary32) : Bool :=
  number.exponentField = 255 ∧ number.fraction ≠ 0

def nan : Binary32 :=
  ⟨0x7fc00000⟩

/-- The 32-bit fields, put together, of a number with these 64-bit fields. -/
def narrowed (field fraction : Nat) : Nat :=
  if field = 2047 then 255 * 2 ^ 23 + fraction / 2 ^ 29
  else if 897 ≤ field then (field - 896) * 2 ^ 23 + fraction / 2 ^ 29
  else if 874 ≤ field then (2 ^ 52 + fraction) / 2 ^ (926 - field)
  else 0

/-- The 32-bit number that a 64-bit number is the widening of, if there is one. -/
def ofWide? (number : Binary64) : Option Binary32 :=
  let single : Binary32 :=
    ⟨BitVec.ofNat 32 ((if number.negative then 2 ^ 31 else 0) +
      narrowed number.exponentField number.fraction)⟩
  if single.widen = number then some single else none

private theorem negative_iff (number : Binary32) :
    number.negative ↔ 2 ^ 31 ≤ number.bits.toNat := by
  rw [negative, BitVec.msb_eq_decide, decide_eq_true_iff]

private theorem exponentField_eq (number : Binary32) :
    number.exponentField = number.bits.toNat / 2 ^ 23 % 2 ^ 8 := by
  rw [exponentField, BitVec.extractLsb'_toNat, Nat.shiftRight_eq_div_pow]

private theorem fraction_eq (number : Binary32) : number.fraction = number.bits.toNat % 2 ^ 23 := by
  rw [fraction, BitVec.extractLsb'_toNat, Nat.shiftRight_zero]

private theorem eq_ofNat (number : Binary32) :
    number = ⟨BitVec.ofNat 32 ((if number.negative then 2 ^ 31 else 0) +
      (number.exponentField * 2 ^ 23 + number.fraction))⟩ := by
  have bound := number.bits.isLt
  apply congrArg Binary32.mk
  apply BitVec.eq_of_toNat_eq
  rw [BitVec.toNat_ofNat, exponentField_eq, fraction_eq]
  split <;> rename_i sign <;> rw [negative_iff] at sign
  · omega
  · omega

/-- The fraction of a subnormal number, with its highest digit moved to the place of a whole
one. -/
theorem shifted_lt {fraction : Nat} (nonzero : fraction ≠ 0) (short : fraction < 2 ^ 23) :
    fraction.log2 ≤ 22 ∧
      (fraction - 2 ^ fraction.log2) * 2 ^ (52 - fraction.log2) < 2 ^ 52 ∧
      2 ^ 52 + (fraction - 2 ^ fraction.log2) * 2 ^ (52 - fraction.log2) =
        fraction * 2 ^ (52 - fraction.log2) := by
  have few : fraction.log2 ≤ 22 := Nat.le_of_lt_succ ((Nat.log2_lt nonzero).2 short)
  have below : 2 ^ fraction.log2 ≤ fraction := Nat.log2_self_le nonzero
  have above : fraction < 2 ^ (fraction.log2 + 1) := Nat.lt_log2_self
  have whole : 2 ^ 52 = 2 ^ fraction.log2 * 2 ^ (52 - fraction.log2) := by
    rw [← Nat.pow_add]
    congr 1
    omega
  have positive : 0 < 2 ^ (52 - fraction.log2) := Nat.two_pow_pos _
  refine ⟨few, ?_, ?_⟩
  · rw [whole]
    rw [Nat.pow_succ] at above
    exact Nat.mul_lt_mul_of_pos_right (by omega) positive
  · rw [whole, ← Nat.add_mul, Nat.add_sub_cancel' below]

theorem widen_eq (number : Binary32) :
    number.widen =
      if number.exponentField = 255 then
        .ofFields number.negative 2047 (number.fraction * 2 ^ 29)
      else if number.exponentField ≠ 0 then
        .ofFields number.negative (number.exponentField + 896) (number.fraction * 2 ^ 29)
      else if number.fraction = 0 then .ofFields number.negative 0 0
      else
        .ofFields number.negative (number.fraction.log2 + 874)
          ((number.fraction - 2 ^ number.fraction.log2) * 2 ^ (52 - number.fraction.log2)) := by
  simp only [widen, Nat.shiftLeft_eq, Nat.one_mul]

/-- The fields of a widened number, from which its own are found again. -/
private theorem exists_widen_eq (number : Binary32) :
    ∃ field fraction, field < 2 ^ 11 ∧ fraction < 2 ^ 52 ∧
      number.widen = .ofFields number.negative field fraction ∧
      narrowed field fraction = number.exponentField * 2 ^ 23 + number.fraction ∧
      (field = 2047 ∧ fraction ≠ 0 ↔ number.exponentField = 255 ∧ number.fraction ≠ 0) := by
  have narrow : number.exponentField < 2 ^ 8 := BitVec.isLt _
  have short : number.fraction < 2 ^ 23 := BitVec.isLt _
  by_cases special : number.exponentField = 255
  · refine ⟨2047, number.fraction * 2 ^ 29, by omega, by omega, ?_, ?_, by omega⟩
    · rw [widen_eq, if_pos special]
    · rw [narrowed, if_pos rfl]
      omega
  by_cases normal : number.exponentField ≠ 0
  · refine ⟨number.exponentField + 896, number.fraction * 2 ^ 29, by omega, by omega, ?_, ?_,
      by omega⟩
    · rw [widen_eq, if_neg special, if_pos normal]
    · rw [narrowed, if_neg (by omega), if_pos (by omega)]
      omega
  have subnormal : number.exponentField = 0 := not_not.1 normal
  by_cases zero : number.fraction = 0
  · refine ⟨0, 0, by omega, by omega, ?_, ?_, by omega⟩
    · rw [widen_eq, if_neg special, if_neg normal, if_pos zero]
    · rw [subnormal, zero]
      rfl
  · rcases shifted_lt zero short with ⟨few, room, whole⟩
    have back := Nat.div_eq_of_eq_mul_left (Nat.two_pow_pos _) whole
    have power : 926 - (number.fraction.log2 + 874) = 52 - number.fraction.log2 := by omega
    refine ⟨number.fraction.log2 + 874, _, by omega, room, ?_, ?_, by omega⟩
    · rw [widen_eq, if_neg special, if_neg normal, if_neg zero]
    · rw [narrowed, if_neg (by omega), if_neg (by omega), if_pos (by omega), power, back]
      omega

theorem ofWide?_widen (number : Binary32) : ofWide? number.widen = some number := by
  rcases exists_widen_eq number with ⟨field, fraction, narrow, short, widened, found, -⟩
  have single : (⟨BitVec.ofNat 32 ((if number.widen.negative then 2 ^ 31 else 0) +
      narrowed number.widen.exponentField number.widen.fraction)⟩ : Binary32) = number := by
    rw [widened, Binary64.negative_ofFields _ narrow short,
      Binary64.exponentField_ofFields _ narrow short, Binary64.fraction_ofFields _ narrow short,
      found, ← eq_ofNat number]
  simp only [ofWide?, single, if_true]

theorem isNaN_widen (number : Binary32) : number.widen.isNaN = number.isNaN := by
  rcases exists_widen_eq number with ⟨field, fraction, narrow, short, widened, -, special⟩
  rw [widened, Binary64.isNaN, Binary64.exponentField_ofFields _ narrow short,
    Binary64.fraction_ofFields _ narrow short, isNaN]
  exact decide_eq_decide.2 special

end Binary32

end PickleTrial
