import PickleTrial.Bytes
import PickleTrial.Text.Numeral

/-! Integers of any size: the literals they are written as, and their shortest little-endian
two's complement form. -/

namespace PickleTrial.Integer

/-- The integer written by decimal digits behind at most one sign. -/
def ofLiteral? : List Char → Option Int
  | '-' :: digits => (Numeral.ofDecimal? digits).map fun magnitude => -(magnitude : Int)
  | '+' :: digits => (Numeral.ofDecimal? digits).map Int.ofNat
  | digits => (Numeral.ofDecimal? digits).map Int.ofNat

example : ofLiteral? ['-', '0', '7'] = some (-7) := rfl

/-- A sign alone is no literal. -/
example : ofLiteral? ['+'] = none := rfl

/-! ## Two's complement -/

/-- The number of binary digits of a number, none for zero. -/
def bitLength (value : Nat) : Nat :=
  if value = 0 then 0 else Nat.log2 value + 1

/-- The base-256 digits of a number, lowest first, without high zeros. -/
def magnitude (value : Nat) : Bytes :=
  Bytes.littleEndian ((bitLength value + 7) / 8) value

/-- The number of binary digits of a number in base 256 whose highest digit is not zero. -/
def digitsBitLength (digits : Bytes) : Nat :=
  match digits.getLast? with
  | none => 0
  | some top => 8 * (digits.length - 1) + bitLength top.toNat

/-- The digits inverted one by one, with a carry into the lowest; what is carried out of the
highest is lost. -/
def complement : Bytes → (carry : Nat) → Bytes
  | [], _ => []
  | digit :: rest, carry =>
      let sum := (~~~digit).toNat + carry
      UInt8.ofNat sum :: complement rest (sum / 256)

/-- A negative number without a highest byte that only repeats the sign of the one below. -/
def dropSign (bytes : Bytes) : Bytes :=
  match bytes.reverse with
  | top :: next :: lower =>
      if top = 0xff ∧ 0x80 ≤ next then (next :: lower).reverse else bytes
  | _ => bytes

/-- The shortest two's complement form of a number with a sign, lowest byte first. The digits of the
number may have zeros at the high end; zero needs no bytes. -/
def shortestForm (negative : Bool) (digits : Bytes) : Bytes :=
  let digits := digits.significant
  if digits = [] then []
  else
    let width := digitsBitLength digits / 8 + 1
    let padded := digits ++ List.replicate (width - digits.length) 0
    if negative then dropSign (complement padded 1) else padded

def twosComplement (value : Int) : Bytes :=
  shortestForm (value < 0) (magnitude value.natAbs)

/-- The shortest form of an integer of 64 bits, from the eight bytes of its magnitude. -/
def twosComplement64 (value : Int64) : Bytes :=
  if value = 0 then []
  else shortestForm (value < 0) (Bytes.littleEndian 8 value.toInt.natAbs).significant

/-- The integer that a little-endian two's complement stands for. -/
def ofTwosComplement (bytes : Bytes) : Int :=
  let value := bytes.toNat
  let modulus := 1 <<< (8 * bytes.length)
  if 2 * value < modulus then value else value - (modulus : Int)

example : twosComplement 255 = [0xff, 0x00] := by decide

example : twosComplement (-128) = [0x80] := by decide

example : twosComplement64 (-129) = [0x7f, 0xff] := by decide

example : ofTwosComplement [0xff, 0x7f] = 32767 := by decide

def FitsInt128 (value : Int) : Prop :=
  -0x80000000000000000000000000000000 ≤ value ∧ value < 0x80000000000000000000000000000000

instance (value : Int) : Decidable (FitsInt128 value) :=
  inferInstanceAs (Decidable (_ ∧ _))

def FitsInt64 (value : Int) : Prop :=
  -0x8000000000000000 ≤ value ∧ value < 0x8000000000000000

instance (value : Int) : Decidable (FitsInt64 value) :=
  inferInstanceAs (Decidable (_ ∧ _))

def FitsInt32 (value : Int) : Prop :=
  -0x80000000 ≤ value ∧ value < 0x80000000

instance (value : Int) : Decidable (FitsInt32 value) :=
  inferInstanceAs (Decidable (_ ∧ _))

end PickleTrial.Integer
