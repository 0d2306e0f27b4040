import Mathlib.Algebra.Group.Int.Defs
import Mathlib.Algebra.GroupWithZero.Nat
import Mathlib.Data.List.Basic
import Mathlib.Data.List.Induction
import PickleTrial.Number.Integer
import PickleTrial.Text.LineEscaped
import PickleTrial.Text.Quoted

/-! Numerals read back. The digits of a number are read as that number, and digits without zeros in
front are those of the number they are read as. A line of digits and signs holds neither a line end
nor anything else beyond printable ASCII. -/

namespace PickleTrial

namespace Numeral

theorem isDigit_of_mem_decimal {value : Nat} {digit : Char} (member : digit ∈ decimal value) :
    digit.isDigit :=
  Nat.isDigit_of_mem_toDigits (by omega) (by omega) member

theorem decimal_ne_nil (value : Nat) : decimal value ≠ [] :=
  Nat.toDigits_ne_nil

/-- A run of digits is read, and as what its digits add up to. -/
theorem ofDecimal?_of_isDigit {digits : List Char} (nonempty : digits ≠ [])
    (digit : ∀ character ∈ digits, character.isDigit) :
    ofDecimal? digits = some (Nat.ofDigitChars 10 digits 0) :=
  if_pos ⟨nonempty, List.all_eq_true.2 digit⟩

@[simp] theorem ofDecimal?_decimal (value : Nat) : ofDecimal? (decimal value) = some value := by
  rw [ofDecimal?_of_isDigit (decimal_ne_nil value) fun _ => isDigit_of_mem_decimal, decimal,
    Nat.ofDigitChars_ten_toDigits]

private theorem ofDecimal?_eq_none_of_mem {digits : List Char} {character : Char}
    (member : character ∈ digits) (noDigit : character.isDigit = false) :
    ofDecimal? digits = none := by
  apply if_neg
  intro given
  rcases given with ⟨-, all⟩
  have digit := List.all_eq_true.1 all character member
  rw [noDigit] at digit
  cases digit

/-- A character of the printable part of ASCII. -/
def IsPrintable (character : Char) : Prop :=
  0x20 ≤ character.toNat ∧ character.toNat < 0x7f

instance (character : Char) : Decidable (IsPrintable character) :=
  inferInstanceAs (Decidable (_ ∧ _))

theorem isPrintable_of_isDigit {character : Char} (digit : character.isDigit) :
    IsPrintable character := by
  have bounds : 48 ≤ character.toNat ∧ character.toNat ≤ 57 := Char.isDigit_iff_toNat.1 digit
  exact ⟨by omega, by omega⟩

theorem isPrintable_of_mem_decimal {value : Nat} {character : Char}
    (member : character ∈ decimal value) : IsPrintable character :=
  isPrintable_of_isDigit (isDigit_of_mem_decimal member)

theorem isPrintable_of_mem_signedDecimal {value : Int} {character : Char}
    (member : character ∈ signedDecimal value) : IsPrintable character := by
  rw [signedDecimal] at member
  split at member
  · rcases List.mem_cons.1 member with rfl | digit
    · decide
    · exact isPrintable_of_mem_decimal digit
  · exact isPrintable_of_mem_decimal member

/-! ## Zeros in front -/

/-- Only the numeral of zero begins with a zero. -/
theorem eq_zero_of_head?_decimal {value : Nat}
    (zero : (decimal value).head? = some '0') : value = 0 := by
  induction value using Nat.strongRecOn with
  | ind value induction =>
      rw [decimal, Nat.toDigits_eq_if (by omega)] at zero
      split at zero
      · have digits : ∀ digit < 10, Nat.digitChar digit = '0' → digit = 0 := by decide
        exact digits value (by assumption) (Option.some.inj zero)
      · rw [List.head?_append_of_ne_nil _ Nat.toDigits_ne_nil] at zero
        have smaller := induction (value / 10) (by omega) zero
        omega

theorem eq_of_head?_decimal {value : Nat} (zero : (decimal value).head? = some '0') :
    decimal value = ['0'] := by
  rw [eq_zero_of_head?_decimal zero]
  rfl

private theorem digitChar_of_isDigit {digit : Char} (isDigit : digit.isDigit) :
    digit.toNat - '0'.toNat < 10 ∧ Nat.digitChar (digit.toNat - '0'.toNat) = digit := by
  have bounds : 48 ≤ digit.toNat ∧ digit.toNat ≤ 57 := Char.isDigit_iff_toNat.1 isDigit
  have digits : ∀ value < 10, Nat.digitChar value = Char.ofNat (48 + value) := by decide
  have zero : '0'.toNat = 48 := rfl
  have small : digit.toNat - 48 < 10 := by omega
  rw [zero, digits _ small, Nat.add_sub_cancel' bounds.1, Char.ofNat_toNat]
  exact ⟨small, rfl⟩

/-- Digits without a zero in front are those of the number that they add up to. -/
theorem decimal_ofDigitChars {digits : List Char} (nonempty : digits ≠ [])
    (digit : ∀ character ∈ digits, character.isDigit)
    (leading : digits.head? = some '0' → digits = ['0']) :
    decimal (Nat.ofDigitChars 10 digits 0) = digits := by
  induction digits using List.reverseRecOn with
  | nil => exact absurd rfl nonempty
  | append_singleton front last induction =>
      rcases digitChar_of_isDigit (digit last (by simp)) with ⟨small, last_⟩
      have single : Nat.toDigits 10 (last.toNat - '0'.toNat) = [last] := by
        rw [Nat.toDigits_of_lt_base small, last_]
      rw [Nat.ofDigitChars_append, Nat.ofDigitChars_cons, Nat.ofDigitChars_nil, decimal]
      by_cases empty : front = []
      · subst empty
        rwa [Nat.ofDigitChars_nil, Nat.mul_zero, Nat.zero_add]
      · have first : front.head? ≠ some '0' := by
          intro zero
          have alone := leading (by rwa [List.head?_append_of_ne_nil _ empty])
          have length := congrArg List.length alone
          have positive := List.length_pos_iff.2 empty
          rw [List.length_append, List.length_singleton, List.length_singleton] at length
          omega
        have digits := induction empty (fun character member => digit character (by simp [member]))
          fun zero => absurd zero first
        have positive : 0 < Nat.ofDigitChars 10 front 0 := by
          rw [Nat.pos_iff_ne_zero]
          intro zero
          rw [zero] at digits
          exact first (digits ▸ rfl)
        rw [← Nat.toDigits_append_toDigits (by omega) positive small, single]
        exact congrArg (· ++ [last]) digits

end Numeral

namespace Integer

theorem ofLiteral?_decimal (value : Nat) :
    ofLiteral? (Numeral.decimal value) = some (value : Int) := by
  have digits := Numeral.ofDecimal?_decimal value
  unfold ofLiteral?
  split
  · rename_i rest equal
    rw [equal, Numeral.ofDecimal?_eq_none_of_mem List.mem_cons_self (by decide)] at digits
    cases digits
  · rename_i rest equal
    rw [equal, Numeral.ofDecimal?_eq_none_of_mem List.mem_cons_self (by decide)] at digits
    cases digits
  · rw [digits]
    rfl

/-- An integer written in decimal is read back. -/
@[simp] theorem ofLiteral?_signedDecimal (value : Int) :
    ofLiteral? (Numeral.signedDecimal value) = some value := by
  rw [Numeral.signedDecimal]
  split
  · rename_i negative
    have magnitude : -(value.natAbs : Int) = value := by omega
    rw [ofLiteral?, Numeral.ofDecimal?_decimal]
    exact congrArg some magnitude
  · rw [ofLiteral?_decimal, Option.some.injEq]
    omega

end Integer

/-! ## Lines of ASCII -/

namespace LineEscaped

theorem newline_notMem_ascii {text : List Char}
    (printable : ∀ character ∈ text, Numeral.IsPrintable character) : 0x0a ∉ ascii text := by
  intro member
  rcases List.mem_map.1 member with ⟨character, inText, equal⟩
  have bounds := printable character inText
  have code := congrArg UInt8.toNat equal
  have narrow : character.toNat < 256 := Nat.lt_trans bounds.2 (by omega)
  rw [UInt8.toNat_ofNat_of_lt' narrow] at code
  exact absurd (code ▸ bounds.1) (by decide)

/-- The character of a byte has the number of the byte. -/
theorem toNat_ofNat_toNat (byte : UInt8) : (Char.ofNat byte.toNat).toNat = byte.toNat := by
  have valid : byte.toNat.isValidChar := .inl (Nat.lt_trans byte.toNat_lt (by decide))
  rw [Char.ofNat, dif_pos valid]
  rfl

theorem map_toNat_latin1 (payload : Bytes) :
    (Quoted.latin1 payload).map Char.toNat = payload.map UInt8.toNat := by
  rw [Quoted.latin1, List.map_map]
  exact List.map_congr_left fun byte _ => toNat_ofNat_toNat byte

theorem latin1_ascii {text : List Char} (narrow : ∀ character ∈ text, character.toNat < 256) :
    Quoted.latin1 (ascii text) = text := by
  rw [Quoted.latin1, ascii, List.map_map]
  refine (List.map_congr_left fun character member => ?_).trans (List.map_id text)
  have code := UInt8.toNat_ofNat_of_lt' (narrow character member)
  simp only [Function.comp_apply, code, Char.ofNat_toNat, id_eq]

theorem latin1_ascii_of_isPrintable {text : List Char}
    (printable : ∀ character ∈ text, Numeral.IsPrintable character) :
    Quoted.latin1 (ascii text) = text :=
  latin1_ascii fun character member => Nat.lt_trans (printable character member).2 (by omega)

end LineEscaped

end PickleTrial
