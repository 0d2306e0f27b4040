/-! Numbers as text: decimal digits without leading zeros, and a fixed number of lower-case
hexadecimal digits. -/

namespace PickleTrial.Numeral

/-- Decimal digits, highest first; zero is one digit. -/
def decimal (value : Nat) : List Char :=
  Nat.toDigits 10 value

def signedDecimal (value : Int) : List Char :=
  if value < 0 then '-' :: decimal value.natAbs else decimal value.natAbs

def hexDigit (value : Nat) : Char :=
  if value < 10 then Char.ofNat (48 + value) else Char.ofNat (87 + value)

/-- The lowest `width` hexadecimal digits of a number, highest first. -/
def hexadecimal : (width : Nat) → (value : Nat) → List Char
  | 0, _ => []
  | width + 1, value => hexadecimal width (value / 16) ++ [hexDigit (value % 16)]

example : hexadecimal 4 0x1a = ['0', '0', '1', 'a'] := rfl

example : signedDecimal (-120) = ['-', '1', '2', '0'] := by decide

@[simp] theorem length_hexadecimal (width value : Nat) :
    (hexadecimal width value).length = width := by
  induction width generalizing value with
  | zero => rfl
  | succ width induction => simp [hexadecimal, induction]

/-- The number written by a run of decimal digits, `none` where the run is empty or holds
anything but the ten ASCII digits. -/
def ofDecimal? (digits : List Char) : Option Nat :=
  if digits ≠ [] ∧ digits.all Char.isDigit then
    some (digits.foldl (fun value digit => 10 * value + (digit.toNat - 48)) 0)
  else
    none

example : ofDecimal? ['0', '4', '2'] = some 42 := rfl

example : ofDecimal? [] = none := rfl

end PickleTrial.Numeral
