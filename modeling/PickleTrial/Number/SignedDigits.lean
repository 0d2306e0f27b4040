import PickleTrial.Number.Decimal

/-! Integers by a sign and decimal digits, as their literals give them. Digits are converted to
base 256 one by one, however many there are, and to a word where the integer has room in it. -/

namespace PickleTrial

/-- A sign and decimal digits, highest first. -/
structure SignedDigits where
  negative : Bool
  digits : List Char
deriving DecidableEq

namespace SignedDigits

/-! ## Literals -/

/-- Digits without zeros in front; zero is one digit. -/
def trimmed (digits : List Char) : List Char :=
  let rest := digits.dropWhile (· = '0')
  if rest = [] then ['0'] else rest

/-- A run of ASCII digits with a sign, which zero does not have. -/
def ofDigits? (negative : Bool) (digits : List Char) : Option SignedDigits :=
  if digits ≠ [] ∧ digits.all Char.isDigit then
    let digits := trimmed digits
    some ⟨negative && digits ≠ ['0'], digits⟩
  else
    none

def ofLiteral? (literal : List Char) : Option SignedDigits :=
  let (negative, digits) := Decimal.splitSign literal
  ofDigits? negative digits

def text (number : SignedDigits) : List Char :=
  if number.negative then '-' :: number.digits else number.digits

example : ofLiteral? ['-', '0', '4', '2'] = some ⟨true, ['4', '2']⟩ := rfl

example : ofLiteral? ['-', '0', '0'] = some ⟨false, ['0']⟩ := rfl

/-! ## Base 256 -/

/-- The number of a digit. -/
def digitWord (digit : Char) : UInt32 :=
  (digit.toUInt8 - 48).toUInt32

/-- The bytes of what is carried out of the highest byte, lowest first, while anything is left. -/
def carryBytes (carry : UInt32) : Bytes :=
  Bytes.significant (Bytes.littleEndian 4 carry.toNat)

/-- Ten times a number in base 256 and a carry into its lowest byte. A word holds what a byte
comes to, and its high bytes are carried into the next. -/
def tenfold : Bytes → (carry : UInt32) → Bytes
  | [], carry => carryBytes carry
  | byte :: rest, carry =>
      let word := byte.toUInt32 * 10 + carry
      word.toUInt8 :: tenfold rest (word >>> 8)

/-- A number in base 256 with one more decimal digit behind it. -/
def appendDigit (bytes : Bytes) (digit : Char) : Bytes :=
  tenfold bytes (digitWord digit)

/-- The number in base 256, lowest byte first, without its sign. -/
def magnitude (number : SignedDigits) : Bytes :=
  number.digits.foldl appendDigit []

example : magnitude ⟨true, ['2', '5', '6']⟩ = [0x00, 0x01] := by decide

/-! ## Words -/

/-- Digits as a number of 128 bits, if it has room in them. -/
def word128? (digits : List Char) : Option (BitVec 128) :=
  ((Integer.ofLiteral? digits).filter fun value => Integer.FitsInt128 value).map (BitVec.ofInt 128)

/-- The integer in 64 bits, if it has room in them. The sign is put to it in 128 bits. -/
def toInt64? (number : SignedDigits) : Option Int64 :=
  (word128? number.digits).bind fun magnitude =>
    let value := (if number.negative then -magnitude else magnitude).toInt
    if Integer.FitsInt64 value then some (Int64.ofInt value) else none

/-- The lowest integer of 64 bits has a magnitude beyond them. -/
example : toInt64? ⟨true, "9223372036854775808".toList⟩ = some Int64.minValue := by decide

end SignedDigits

end PickleTrial
