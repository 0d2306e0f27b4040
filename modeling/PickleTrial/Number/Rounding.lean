/-! Rounding a quotient of natural numbers to the nearest whole number, and to one decimal
place. -/

namespace PickleTrial.Rounding

/-- The whole number nearest to `numerator / denominator`; halfway goes to the even one. -/
def halfEven (numerator denominator : Nat) : Nat :=
  let whole := numerator / denominator
  let rest := numerator % denominator
  if 2 * rest < denominator then whole
  else if denominator < 2 * rest then whole + 1
  else whole + whole % 2

example : halfEven 5 2 = 2 ∧ halfEven 7 2 = 4 ∧ halfEven 8 3 = 3 := by decide

def oneDecimal (numerator denominator : Nat) : List Char :=
  let tenths := halfEven (10 * numerator) denominator
  Nat.toDigits 10 (tenths / 10) ++ '.' :: Nat.toDigits 10 (tenths % 10)

example : oneDecimal 1 4 = ['0', '.', '2'] := by decide

end PickleTrial.Rounding
