import PickleTrial.Number.Shortest
import PickleTrial.Text.Numeral

/-! Floating-point numbers as text: the shortest digits that read back, laid out positionally
while the first digit stands between the fourth place after the point and the sixteenth before
it, and with a power of ten otherwise. -/

namespace PickleTrial.FloatText

/-- Digits with the point behind the digit of power zero; at least one digit stands on each
side. -/
def positional (digits : List Char) (power : Int) : List Char :=
  if power < 0 then
    '0' :: '.' :: (List.replicate (power.natAbs - 1) '0' ++ digits)
  else
    let whole := power.toNat + 1
    if digits.length ≤ whole then
      digits ++ List.replicate (whole - digits.length) '0' ++ ['.', '0']
    else
      digits.take whole ++ '.' :: digits.drop whole

/-- A power of ten with a sign and at least two digits. -/
def powerText (power : Int) : List Char :=
  let digits := Numeral.decimal power.natAbs
  let padded := if digits.length < 2 then '0' :: digits else digits
  'e' :: (if power < 0 then '-' else '+') :: padded

def scientific (digits : List Char) (power : Int) : List Char :=
  match digits with
  | [] => powerText power
  | [digit] => digit :: powerText power
  | first :: rest => first :: '.' :: (rest ++ powerText power)

/-- The notation of an unsigned decimal whose first digit has the given power of ten. -/
def layout (digits : List Char) (power : Int) : List Char :=
  if -4 ≤ power ∧ power < 16 then positional digits power else scientific digits power

/-- The digits of a decimal without its final zeros, and the power of ten of the first. -/
def significant (decimal : Shortest.Decimal) : List Char × Int :=
  let digits := Numeral.decimal decimal.coefficient
  ((digits.reverse.dropWhile (· = '0')).reverse, decimal.scale + digits.length - 1)

def magnitude (number : Binary64) : List Char :=
  if number.significand = 0 then layout ['0'] 0
  else
    let (digits, power) := significant (Shortest.decimal number.significand number.exponent)
    layout digits power

/-- The text of a floating-point number. A NaN has no sign; a zero keeps its own. -/
def text (number : Binary64) : List Char :=
  if number.isNaN then ['n', 'a', 'n']
  else
    let body := if number.isInfinite then ['i', 'n', 'f'] else magnitude number
    if number.negative then '-' :: body else body

example : text ⟨0x3ff0000000000000⟩ = ['1', '.', '0'] := by decide +kernel

example : text ⟨0x8000000000000000⟩ = ['-', '0', '.', '0'] := by decide +kernel

example : text ⟨0x4341c37937e08000⟩ = ['1', 'e', '+', '1', '6'] := by decide +kernel

end PickleTrial.FloatText
