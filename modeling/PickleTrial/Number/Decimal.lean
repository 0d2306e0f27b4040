import PickleTrial.Number.Integer

/-! Decimal numbers with their precision: `1.50` and `1.5` are two numbers of one value. The
literals that write them are read into a sign, a coefficient and an exponent, and each number
has one canonical text. -/

namespace PickleTrial

inductive Decimal
  /-- `±coefficient * 10 ^ exponent`; a zero has a sign and an exponent too. -/
  | finite (negative : Bool) (coefficient : Nat) (exponent : Int)
  | infinity (negative : Bool)
  | nan (negative signaling : Bool)
deriving DecidableEq

namespace Decimal

/-! ## Literals -/

/-- The part of a text before the first character of a kind, and the part behind it. -/
def splitAtFirst (separator : Char → Bool) : List Char → List Char × Option (List Char)
  | [] => ([], none)
  | head :: tail =>
      if separator head then ([], some tail)
      else
        let (before, behind) := splitAtFirst separator tail
        (head :: before, behind)

/-- The sign of a literal, and what follows it. -/
def splitSign : List Char → Bool × List Char
  | '-' :: rest => (true, rest)
  | '+' :: rest => (false, rest)
  | literal => (false, literal)

/-- The exponent of a literal: none written means zero, and one written fits 64 bits. -/
def exponentOf? : Option (List Char) → Option Int
  | none => some 0
  | some literal => (Integer.ofLiteral? literal).filter fun value => Integer.FitsInt64 value

/-- A number in digits: digits with at most one point, and at most one exponent. -/
def finiteOf? (negative : Bool) (body : List Char) : Option Decimal := do
  let (significand, exponent) := splitAtFirst (fun c => c = 'e' || c = 'E') body
  let (whole, fraction) := splitAtFirst (· = '.') significand
  let fraction := fraction.getD []
  let coefficient ← Numeral.ofDecimal? (whole ++ fraction)
  let exponent ← exponentOf? exponent
  return .finite negative coefficient (exponent - fraction.length)

/-- The number that a literal writes. Names of infinities and NaNs are read in any case. -/
def ofLiteral? (literal : List Char) : Option Decimal :=
  let (negative, body) := splitSign literal
  let name := String.ofList (body.map Char.toLower)
  if name = "inf" ∨ name = "infinity" then some (.infinity negative)
  else if name = "nan" then some (.nan negative false)
  else if name = "snan" then some (.nan negative true)
  else finiteOf? negative body

/-! ## Canonical text -/

/-- The power of ten of the first digit. -/
def adjusted (coefficient : Nat) (exponent : Int) : Int :=
  exponent + (Numeral.decimal coefficient).length - 1

/-- Digits with a point and no exponent, for an exponent of zero or below. -/
def plain (digits : List Char) (exponent : Int) : List Char :=
  if exponent = 0 then digits
  else
    let point := (digits.length : Int) + exponent
    if 0 < point then digits.take point.toNat ++ '.' :: digits.drop point.toNat
    else '0' :: '.' :: (List.replicate point.natAbs '0' ++ digits)

/-- One digit before the point, and the power of ten of that digit. -/
def scientific (digits : List Char) (power : Int) : List Char :=
  let exponent :=
    'E' :: (if power < 0 then '-' else '+') :: Numeral.decimal power.natAbs
  match digits with
  | [] => exponent
  | [digit] => digit :: exponent
  | first :: rest => first :: '.' :: (rest ++ exponent)

/-- Plain notation is used where the exponent is not above zero and at most six zeros lead. -/
def magnitude (coefficient : Nat) (exponent : Int) : List Char :=
  let digits := Numeral.decimal coefficient
  let power := adjusted coefficient exponent
  if exponent ≤ 0 ∧ -6 ≤ power then plain digits exponent else scientific digits power

def text : Decimal → List Char
  | .finite negative coefficient exponent => signed negative (magnitude coefficient exponent)
  | .infinity negative => signed negative "Infinity".toList
  | .nan negative signaling => signed negative (if signaling then "sNaN" else "NaN").toList
where
  signed (negative : Bool) (body : List Char) : List Char :=
    if negative then '-' :: body else body

def canonical? (literal : String) : Option String :=
  (ofLiteral? literal.toList).map fun number => String.ofList number.text

example : canonical? "+.50" = some "0.50" := by decide +kernel

example : canonical? "-12.5E+1" = some "-125" := by decide +kernel

example : canonical? "1e-7" = some "1E-7" := by decide +kernel

example : canonical? "-inf" = some "-Infinity" := by decide +kernel

example : canonical? "1.2.3" = none := by decide +kernel

end Decimal

end PickleTrial
