import PickleTrial.Number.Rounding

/-! Floating-point numbers as bit patterns: a sign, an exponent field and a fraction field.
Two patterns are the same number only where they are the same bits, so the sign of a zero and
the payload of a NaN are kept. -/

namespace PickleTrial

structure Binary64 where
  bits : BitVec 64
deriving DecidableEq

structure Binary32 where
  bits : BitVec 32
deriving DecidableEq

namespace Binary64

def negative (number : Binary64) : Bool :=
  number.bits.msb

def exponentField (number : Binary64) : Nat :=
  (number.bits.extractLsb' 52 11).toNat

def fraction (number : Binary64) : Nat :=
  (number.bits.extractLsb' 0 52).toNat

def isNaN (number : Binary64) : Bool :=
  number.exponentField = 2047 ∧ number.fraction ≠ 0

def isInfinite (number : Binary64) : Bool :=
  number.exponentField = 2047 ∧ number.fraction = 0

/-- The whole number that a finite pattern scales by a power of two. -/
def significand (number : Binary64) : Nat :=
  if number.exponentField = 0 then number.fraction else number.fraction + 1 <<< 52

/-- The power of two by which the significand of a finite pattern is scaled. -/
def exponent (number : Binary64) : Int :=
  (max number.exponentField 1 : Nat) - 1075

/-- The magnitude of a finite number as a quotient. -/
def quotient (number : Binary64) : Nat × Nat :=
  if 0 ≤ number.exponent then (number.significand <<< number.exponent.toNat, 1)
  else (number.significand, 1 <<< number.exponent.natAbs)

def abs (number : Binary64) : Binary64 :=
  ⟨number.bits &&& 0x7fffffffffffffff⟩

def positiveZero : Binary64 :=
  ⟨0⟩

def ofFields (negative : Bool) (exponentField fraction : Nat) : Binary64 :=
  ⟨BitVec.ofNat 64 ((if negative then 1 <<< 63 else 0) + exponentField <<< 52 + fraction)⟩

/-- The whole number that a pattern stands for, where it stands for one. -/
def toInt? (number : Binary64) : Option Int :=
  if number.exponentField = 2047 then none
  else
    let magnitude : Option Nat :=
      if 0 ≤ number.exponent then some (number.significand <<< number.exponent.toNat)
      else
        let unit := 1 <<< number.exponent.natAbs
        if number.significand % unit = 0 then some (number.significand / unit) else none
    magnitude.map fun magnitude => if number.negative then -(magnitude : Int) else magnitude

/-- The pattern nearest to the quotient of two natural numbers; halfway goes to the even
significand, and what lies beyond the largest finite pattern becomes infinite. -/
def nearest (numerator denominator : Nat) : Binary64 :=
  if numerator = 0 then positiveZero
  else
    let guess : Int := (Nat.log2 numerator : Int) - Nat.log2 denominator - 52
    let scaledBy (power : Int) : Nat × Nat :=
      if 0 ≤ power then (numerator, denominator <<< power.toNat)
      else (numerator <<< power.natAbs, denominator)
    -- Scaled by the guess, 52 or 53 binary digits stand before the point.
    let exact := scaledBy guess
    let power := max (-1074) (if exact.1 / exact.2 < 1 <<< 52 then guess - 1 else guess)
    let scaled := scaledBy power
    let significand := Rounding.halfEven scaled.1 scaled.2
    let pattern := (power + 1074).toNat <<< 52 + significand
    ⟨BitVec.ofNat 64 (min pattern (2047 <<< 52))⟩

/-- One tenth. -/
example : nearest 1 10 = ⟨0x3fb999999999999a⟩ := by decide +kernel

/-- Two thirds. -/
example : nearest 2 3 = ⟨0x3fe5555555555555⟩ := by decide +kernel

end Binary64

namespace Binary32

def negative (number : Binary32) : Bool :=
  number.bits.msb

def exponentField (number : Binary32) : Nat :=
  (number.bits.extractLsb' 23 8).toNat

def fraction (number : Binary32) : Nat :=
  (number.bits.extractLsb' 0 23).toNat

/-- The same number in 64 bits. Every 32-bit number has a 64-bit pattern; a NaN keeps its
payload as the high end of the wider fraction. -/
def widen (number : Binary32) : Binary64 :=
  let fraction := number.fraction
  if number.exponentField = 255 then
    .ofFields number.negative 2047 (fraction <<< 29)
  else if number.exponentField ≠ 0 then
    .ofFields number.negative (number.exponentField + 896) (fraction <<< 29)
  else if fraction = 0 then
    .ofFields number.negative 0 0
  else
    let top := Nat.log2 fraction
    .ofFields number.negative (top + 874) ((fraction - 1 <<< top) <<< (52 - top))

/-- One and a half. -/
example : widen ⟨0x3fc00000⟩ = ⟨0x3ff8000000000000⟩ := by decide

/-- The smallest number above zero is no longer subnormal in 64 bits. -/
example : widen ⟨1⟩ = ⟨0x36a0000000000000⟩ := by decide

end Binary32

end PickleTrial
