import PickleTrial.Number.Binary

/-! The shortest decimal that reads back as a given floating-point number.

A positive number `m * 2 ^ q` owns an interval of reals: everything that rounds to it. The
interval reaches half a step down and half a step up, and a step down is half as long where `m`
is the lowest significand of its power. Its ends belong to it where `m` is even. Decimals with
`n` digits form a grid; only the two points of the grid next to the number can be the nearest
ones in the interval, so the first grid with one of them in the interval decides. -/

namespace PickleTrial.Shortest

/-- The decimal `coefficient * 10 ^ scale`. -/
structure Decimal where
  coefficient : Nat
  scale : Int
deriving DecidableEq

/-- `value * base ^ power` as a quotient of natural numbers. -/
def scaled (value base : Nat) (power : Int) : Nat × Nat :=
  if 0 ≤ power then (value * base.pow power.toNat, 1) else (value, base.pow power.natAbs)

def atMost (left right : Nat × Nat) : Bool :=
  left.1 * right.2 ≤ right.1 * left.2

def below (left right : Nat × Nat) : Bool :=
  left.1 * right.2 < right.1 * left.2

/-- The lower end of the interval of `m * 2 ^ q`. -/
def lowerEnd (m : Nat) (q : Int) : Nat × Nat :=
  let step := if m = 1 <<< 52 ∧ -1074 < q then 1 else 2
  scaled (4 * m - step) 2 (q - 2)

/-- The upper end of the interval of `m * 2 ^ q`. -/
def upperEnd (m : Nat) (q : Int) : Nat × Nat :=
  scaled (4 * m + 2) 2 (q - 2)

/-- Whether a decimal reads back as `m * 2 ^ q`. -/
def Decimal.readsBack (decimal : Decimal) (m : Nat) (q : Int) : Bool :=
  let value := scaled decimal.coefficient 10 decimal.scale
  if m % 2 = 0 then
    atMost (lowerEnd m q) value && atMost value (upperEnd m q)
  else
    below (lowerEnd m q) value && below value (upperEnd m q)

/-- The decimal exponent of a positive quotient: the power of ten of its first digit. -/
def leadingPower (value : Nat × Nat) : Int :=
  if value.2 ≤ value.1 then
    ((Nat.toDigits 10 (value.1 / value.2)).length : Int) - 1
  else
    -- The least `j` with `1 ≤ value * 10 ^ j` has as many digits as the inverse, rounded up, less
    -- one.
    -((Nat.toDigits 10 ((value.2 - 1) / value.1)).length : Int)

/-- The nearest decimal with `digits` digits that reads back as `m * 2 ^ q`, if there is one.
A number halfway between two of them gets the larger one. -/
def withDigits? (m : Nat) (q : Int) (digits : Nat) : Option Decimal :=
  let value := scaled m 2 q
  let scale := leadingPower value - (digits : Int) + 1
  let unit := scaled 1 10 scale
  let low := value.1 * unit.2 / (value.2 * unit.1)
  let lower : Decimal := ⟨low, scale⟩
  let upper : Decimal := ⟨low + 1, scale⟩
  match lower.readsBack m q, upper.readsBack m q with
  | false, false => none
  | true, false => some lower
  | false, true => some upper
  | true, true =>
      if 2 * value.1 * unit.2 < (2 * low + 1) * (value.2 * unit.1) then some lower
      else some upper

/-- The decimal with the fewest digits that reads back as `m * 2 ^ q`, for `0 < m`. Seventeen
digits always suffice. -/
def decimal (m : Nat) (q : Int) : Decimal :=
  ((List.range 17).findSome? fun digits => withDigits? m q (digits + 1)).getD ⟨m, 0⟩

/-- One tenth needs one digit. -/
example : decimal 0x1999999999999a (-56) = ⟨1, -1⟩ := by decide +kernel

/-- The power `2 ^ -25` lies halfway between two decimals of 17 digits. -/
example : decimal (2 ^ 52) (-77) = ⟨29802322387695313, -24⟩ := by decide +kernel

/-- The smallest positive number. -/
example : decimal 1 (-1074) = ⟨5, -324⟩ := by decide +kernel

end PickleTrial.Shortest
