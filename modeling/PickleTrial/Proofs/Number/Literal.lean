import Mathlib.Tactic.ByContra
import PickleTrial.Number.Decimal
import PickleTrial.Proofs.Text.Numeral

/-! The literals of integers in their parts. A literal is at most one sign and digits, any number of
zeros in front, and it is read as the integer of its sign and digits; nothing else is read. -/

namespace PickleTrial

/-- What stands in front of the digits of a number. -/
inductive Sign
  | none
  | plus
  | minus
deriving DecidableEq

namespace Sign

def text : Sign → List Char
  | none => []
  | plus => ['+']
  | minus => ['-']

def negative : Sign → Bool
  | minus => true
  | _ => false

def apply : Sign → Nat → Int
  | minus, magnitude => -(magnitude : Int)
  | _, magnitude => magnitude

theorem natAbs_apply (sign : Sign) (magnitude : Nat) :
    (sign.apply magnitude).natAbs = magnitude := by
  cases sign <;> simp only [apply] <;> omega

/-- A text that does not begin with a sign. -/
structure Free (text : List Char) : Prop where
  minus : text.head? ≠ some '-'
  plus : text.head? ≠ some '+'

theorem free_of_isDigit {digits : List Char} (digit : ∀ character ∈ digits, character.isDigit) :
    Free digits := by
  have different {character : Char} (noDigit : character.isDigit = false) :
      digits.head? ≠ some character := by
    intro first
    have member := digit character (List.mem_of_mem_head? first)
    rw [noDigit] at member
    cases member
  exact ⟨different (by decide), different (by decide)⟩

/-- Every text is a sign, if it begins with one, and what follows. -/
theorem exists_eq_append (text : List Char) :
    ∃ (sign : Sign) (rest : List Char), text = sign.text ++ rest ∧ (sign = .none → Free rest) := by
  by_cases minus : text.head? = some '-'
  · rcases List.head?_eq_some_iff.1 minus with ⟨rest, rfl⟩
    exact ⟨.minus, rest, rfl, nofun⟩
  · by_cases plus : text.head? = some '+'
    · rcases List.head?_eq_some_iff.1 plus with ⟨rest, rfl⟩
      exact ⟨.plus, rest, rfl, nofun⟩
    · exact ⟨.none, text, rfl, fun _ => ⟨minus, plus⟩⟩

end Sign

/-- A sign is split off, if there is one. -/
theorem Decimal.splitSign_append {sign : Sign} {rest : List Char}
    (free : sign = .none → Sign.Free rest) :
    splitSign (sign.text ++ rest) = (sign.negative, rest) := by
  cases sign with
  | none =>
      rw [Sign.text, List.nil_append]
      unfold splitSign
      split
      · exact absurd rfl (free rfl).minus
      · exact absurd rfl (free rfl).plus
      · rfl
  | plus | minus => rfl

/-- A run of digits is read, and nothing else, and as what its digits add up to. -/
theorem Numeral.ofDecimal?_eq_some_iff {digits : List Char} {value : Nat} :
    ofDecimal? digits = some value ↔
      (digits ≠ [] ∧ ∀ character ∈ digits, character.isDigit) ∧
        Nat.ofDigitChars 10 digits 0 = value := by
  constructor
  · intro read
    have given : digits ≠ [] ∧ digits.all Char.isDigit := by
      by_contra other
      rw [ofDecimal?, if_neg other] at read
      cases read
    have digit := List.all_eq_true.1 given.2
    rw [ofDecimal?_of_isDigit given.1 digit] at read
    exact ⟨⟨given.1, digit⟩, Option.some.inj read⟩
  · rintro ⟨⟨nonempty, digit⟩, rfl⟩
    exact ofDecimal?_of_isDigit nonempty digit

namespace Integer

/-- A literal of an integer: its sign, if any, and its digits. -/
structure Literal where
  sign : Sign
  digits : List Char
  nonempty : digits ≠ []
  digit : ∀ character ∈ digits, character.isDigit
deriving DecidableEq

namespace Literal

def text (literal : Literal) : List Char :=
  literal.sign.text ++ literal.digits

def value (literal : Literal) : Int :=
  literal.sign.apply (Nat.ofDigitChars 10 literal.digits 0)

end Literal

private theorem ofLiteral?_append {sign : Sign} {digits : List Char}
    (free : sign = .none → Sign.Free digits) :
    ofLiteral? (sign.text ++ digits) = (Numeral.ofDecimal? digits).map sign.apply := by
  cases sign with
  | none =>
      rw [Sign.text, List.nil_append]
      unfold ofLiteral?
      split
      · exact absurd rfl (free rfl).minus
      · exact absurd rfl (free rfl).plus
      · rfl
  | plus => rfl
  | minus =>
      rw [Sign.text, List.cons_append, List.nil_append, ofLiteral?]
      cases Numeral.ofDecimal? digits <;> rfl

theorem ofLiteral?_text (literal : Literal) :
    ofLiteral? literal.text = some literal.value := by
  rw [Literal.text, ofLiteral?_append fun _ => Sign.free_of_isDigit literal.digit,
    Numeral.ofDecimal?_of_isDigit literal.nonempty literal.digit]
  rfl

/-- What is read as an integer is a literal of it. -/
theorem ofLiteral?_eq_some_iff {text : List Char} {value : Int} :
    ofLiteral? text = some value ↔
      ∃ literal : Literal, literal.text = text ∧ literal.value = value := by
  constructor
  · intro read
    rcases Sign.exists_eq_append text with ⟨sign, digits, rfl, free⟩
    rw [ofLiteral?_append free] at read
    rcases Option.map_eq_some_iff.1 read with ⟨magnitude, found, rfl⟩
    rcases Numeral.ofDecimal?_eq_some_iff.1 found with ⟨⟨nonempty, digit⟩, rfl⟩
    exact ⟨⟨sign, digits, nonempty, digit⟩, rfl, rfl⟩
  · rintro ⟨literal, rfl, rfl⟩
    exact ofLiteral?_text literal

end Integer

end PickleTrial
