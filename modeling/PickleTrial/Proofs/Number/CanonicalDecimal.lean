import PickleTrial.Proofs.Number.DecimalLiteral

/-! The canonical texts of decimal numbers. Each is a literal of its number, in plain notation where
no zeros are missing behind its digits and few are before them, and in scientific notation
elsewhere. So numbers can be told apart by their texts, and a canonical text stays as it is. -/

namespace PickleTrial

/-! ## Signs -/

/-- The sign that is not left out. -/
def Sign.ofNegative (negative : Bool) : Sign :=
  if negative then .minus else .none

private theorem Sign.negative_ofNegative (negative : Bool) :
    (ofNegative negative).negative = negative := by
  cases negative <;> rfl

namespace Integer.Literal

/-- The literal of an integer with a sign also for what is not negative. -/
def signed (value : Int) : Literal where
  sign := if value < 0 then .minus else .plus
  digits := Numeral.decimal value.natAbs
  nonempty := Numeral.decimal_ne_nil _
  digit _ := Numeral.isDigit_of_mem_decimal

private theorem text_signed (value : Int) :
    (signed value).text = (if value < 0 then '-' else '+') :: Numeral.decimal value.natAbs := by
  rw [text, signed]
  split <;> rfl

private theorem value_signed (value : Int) : (signed value).value = value := by
  have magnitude : Nat.ofDigitChars 10 (Numeral.decimal value.natAbs) 0 = value.natAbs :=
    Nat.ofDigitChars_ten_toDigits
  rw [Literal.value, signed, magnitude]
  split <;> simp only [Sign.apply] <;> omega

end Integer.Literal

namespace Decimal

/-! ## Layouts -/

/-- Digits, with a point only where digits follow it, and without zeros that could be left out. -/
structure Literal.IsPlain (literal : Literal) : Prop where
  exponent : literal.exponent = none
  whole : literal.whole ≠ []
  leading : literal.whole.head? = some '0' → literal.whole = ['0']
  fraction : literal.fraction ≠ some []

/-- One digit, the others behind a point, and the power of ten of that digit with its sign. -/
structure Literal.IsScientific (literal : Literal) : Prop where
  whole : ∃ digit, literal.whole = [digit]
  leading : literal.whole = ['0'] → literal.fraction = none
  fraction : literal.fraction ≠ some []
  exponent : ∃ power, literal.exponent = some ⟨true, .signed power⟩

private theorem Literal.IsPlain.not_isScientific {literal : Literal} (plain : literal.IsPlain) :
    ¬literal.IsScientific := by
  intro scientific
  rcases scientific.exponent with ⟨power, written⟩
  rw [plain.exponent] at written
  cases written

/-- The parts of a literal add up to a body and to numbers. -/
structure Literal.Spells (literal : Literal) (body : List Char) (coefficient : Nat)
    (scale power : Int) : Prop where
  body : literal.body = body
  coefficient : literal.coefficient = coefficient
  scale : literal.scale = scale
  power : literal.power = power

section Layouts

variable {digits : List Char} (digit : FloatText.IsDigits digits) (nonempty : digits ≠ [])
  (leading : digits.head? = some '0' → digits = ['0']) (sign : Sign)

include digit nonempty leading

private theorem exists_withoutPoint :
    ∃ literal : Literal, literal.sign = sign ∧ literal.IsPlain ∧
      literal.Spells digits (Nat.ofDigitChars 10 digits 0) 0 0 := by
  refine ⟨⟨sign, digits, none, none, by simpa using nonempty, by simpa using digit⟩, rfl,
    ⟨rfl, nonempty, leading, nofun⟩, ⟨?_, ?_, rfl, rfl⟩⟩
  · simp [Literal.body, Literal.significand]
  · exact congrArg (Nat.ofDigitChars 10 · 0) (List.append_nil digits)

private theorem exists_pointAt {point : Nat} (positive : 0 < point)
    (within : point < digits.length) : ∃ literal : Literal, literal.sign = sign ∧ literal.IsPlain ∧
      literal.Spells (digits.take point ++ '.' :: digits.drop point)
        (Nat.ofDigitChars 10 digits 0) (point - digits.length) 0 := by
  have split : digits.take point ++ digits.drop point = digits :=
    List.take_append_drop point digits
  refine ⟨⟨sign, digits.take point, some (digits.drop point), none,
    by rwa [Option.getD_some, split], by rwa [Option.getD_some, split]⟩, rfl,
    ⟨rfl, ?_, ?_, ?_⟩, ⟨?_, ?_, ?_, rfl⟩⟩
  · simp only [ne_eq, List.take_eq_nil_iff, not_or]
    exact ⟨by omega, nonempty⟩
  · -- One digit alone does not have a point behind it.
    intro zero
    rw [List.head?_take, if_neg (by omega)] at zero
    have alone := congrArg List.length (leading zero)
    rw [List.length_singleton] at alone
    omega
  · rw [ne_eq, Option.some.injEq, List.drop_eq_nil_iff]
    omega
  · simp [Literal.body, Literal.significand]
  · exact congrArg (Nat.ofDigitChars 10 · 0) split
  · have behind : (0 : Int) - (digits.drop point).length = point - digits.length := by
      rw [List.length_drop]
      omega
    exact behind

omit leading in
private theorem exists_pointBefore (zeros : Nat) :
    ∃ literal : Literal, literal.sign = sign ∧ literal.IsPlain ∧
      literal.Spells ('0' :: '.' :: (List.replicate zeros '0' ++ digits))
        (Nat.ofDigitChars 10 digits 0) (-(zeros + digits.length : Int)) 0 := by
  have all : FloatText.IsDigits (['0'] ++ (List.replicate zeros '0' ++ digits)) :=
    (FloatText.isDigits_replicate 1).append ((FloatText.isDigits_replicate zeros).append digit)
  refine ⟨⟨sign, ['0'], some (List.replicate zeros '0' ++ digits), none, by simp, all⟩, rfl,
    ⟨rfl, by simp, fun _ => rfl, by simp [nonempty]⟩, ⟨?_, ?_, ?_, rfl⟩⟩
  · simp [Literal.body, Literal.significand]
  · exact (FloatText.ofDigitChars_zeros 1 _).trans (FloatText.ofDigitChars_zeros zeros digits)
  · have behind : (0 : Int) - (List.replicate zeros '0' ++ digits).length =
        -(zeros + digits.length : Int) := by
      rw [List.length_append, List.length_replicate]
      omega
    exact behind

private theorem exists_plain {exponent : Int} (low : exponent ≤ 0) :
    ∃ literal : Literal, literal.sign = sign ∧ literal.IsPlain ∧
      literal.Spells (plain digits exponent) (Nat.ofDigitChars 10 digits 0) exponent 0 := by
  rw [plain]
  split
  · rename_i whole
    rw [whole]
    exact exists_withoutPoint digit nonempty leading sign
  · simp only
    split
    · have point : (((digits.length : Int) + exponent).toNat : Int) - digits.length = exponent := by
        omega
      have pointed := exists_pointAt digit nonempty leading sign
        (show 0 < ((digits.length : Int) + exponent).toNat by omega) (by omega)
      rwa [point] at pointed
    · have zeros : -((((digits.length : Int) + exponent).natAbs : Int) + digits.length) =
          exponent := by omega
      have padded := exists_pointBefore digit nonempty sign
        ((digits.length : Int) + exponent).natAbs
      rwa [zeros] at padded

private theorem exists_scientific (power : Int) :
    ∃ literal : Literal, literal.sign = sign ∧ literal.IsScientific ∧
      literal.Spells (scientific digits power) (Nat.ofDigitChars 10 digits 0)
        (power - digits.length + 1) power := by
  have written : Exponent.text ⟨true, .signed power⟩ =
      'E' :: (if power < 0 then '-' else '+') :: Numeral.decimal power.natAbs := by
    rw [Exponent.text, Integer.Literal.text_signed]
    rfl
  cases digits with
  | nil => exact absurd rfl nonempty
  | cons first rest =>
      cases rest with
      | nil =>
          refine ⟨⟨sign, [first], none, some ⟨true, .signed power⟩, by simp, by simpa using digit⟩,
            rfl, ⟨⟨first, rfl⟩, fun _ => rfl, by simp, ⟨power, rfl⟩⟩, ⟨?_, rfl, ?_, ?_⟩⟩
          · simp [Literal.body, Literal.significand, scientific, written]
          · simp [Literal.scale, Literal.power, Integer.Literal.value_signed]
          · exact Integer.Literal.value_signed power
      | cons second others =>
          refine ⟨⟨sign, [first], some (second :: others), some ⟨true, .signed power⟩, by simp,
            digit⟩, rfl, ⟨⟨first, rfl⟩, ?_, by simp, ⟨power, rfl⟩⟩, ⟨?_, rfl, ?_, ?_⟩⟩
          · intro zero
            cases leading (congrArg List.head? zero)
          · simp [Literal.body, Literal.significand, scientific, written]
          · simp [Literal.scale, Literal.power, Integer.Literal.value_signed]
            omega
          · exact Integer.Literal.value_signed power

end Layouts

/-! ## Canonical literals -/

private theorem text_finite (negative : Bool) (coefficient : Nat) (exponent : Int) :
    text (.finite negative coefficient exponent) =
      (Sign.ofNegative negative).text ++ magnitude coefficient exponent := by
  cases negative <;> rfl

/-- The literal that is the canonical text of a finite number. -/
structure Literal.IsCanonical (literal : Literal) (negative : Bool) (coefficient : Nat)
    (exponent : Int) : Prop where
  text : literal.text = Decimal.text (.finite negative coefficient exponent)
  number : literal.number = .finite negative coefficient exponent
  sign : literal.sign = .ofNegative negative
  plain_iff : literal.IsPlain ↔ exponent ≤ 0 ∧ -6 ≤ adjusted coefficient exponent
  scientific_iff : literal.IsScientific ↔ ¬(exponent ≤ 0 ∧ -6 ≤ adjusted coefficient exponent)
  power : literal.power = 0 ∨ literal.power = adjusted coefficient exponent

/-- A literal with the digits of a coefficient in their layout is the text of the number. -/
private theorem Literal.Spells.text_and_number {literal : Literal} {negative : Bool}
    {coefficient : Nat} {exponent power : Int} (sign : literal.sign = .ofNegative negative)
    (spells : literal.Spells (magnitude coefficient exponent)
      (Nat.ofDigitChars 10 (Numeral.decimal coefficient) 0) exponent power) :
    literal.text = Decimal.text (.finite negative coefficient exponent) ∧
      literal.number = .finite negative coefficient exponent := by
  have value : Nat.ofDigitChars 10 (Numeral.decimal coefficient) 0 = coefficient :=
    Nat.ofDigitChars_ten_toDigits
  constructor
  · rw [Literal.text, sign, spells.body, text_finite]
  · rw [Literal.number, sign, Sign.negative_ofNegative, spells.coefficient, spells.scale, value]

private theorem exists_isCanonical (negative : Bool) (coefficient : Nat) (exponent : Int) :
    ∃ literal : Literal, literal.IsCanonical negative coefficient exponent := by
  have digit := FloatText.isDigits_decimal coefficient
  have nonempty := Numeral.decimal_ne_nil coefficient
  by_cases low : exponent ≤ 0 ∧ -6 ≤ adjusted coefficient exponent
  · rcases exists_plain digit nonempty Numeral.eq_of_head?_decimal (.ofNegative negative) low.1
      with ⟨literal, sign, plain, spells⟩
    have laidOut : magnitude coefficient exponent =
        Decimal.plain (Numeral.decimal coefficient) exponent := if_pos low
    rw [← laidOut] at spells
    rcases Literal.Spells.text_and_number sign spells with ⟨text, number⟩
    exact ⟨literal, text, number, sign, iff_of_true plain low,
      iff_of_false plain.not_isScientific (not_not.2 low), .inl spells.power⟩
  · rcases exists_scientific digit nonempty Numeral.eq_of_head?_decimal (.ofNegative negative)
      (adjusted coefficient exponent) with ⟨literal, sign, scientific, spells⟩
    have laidOut : magnitude coefficient exponent = Decimal.scientific
        (Numeral.decimal coefficient) (adjusted coefficient exponent) := if_neg low
    have scale : adjusted coefficient exponent - (Numeral.decimal coefficient).length + 1 =
        exponent := by
      rw [adjusted]
      omega
    rw [← laidOut, scale] at spells
    rcases Literal.Spells.text_and_number sign spells with ⟨text, number⟩
    exact ⟨literal, text, number, sign,
      iff_of_false (fun plain => plain.not_isScientific scientific) low,
      iff_of_true scientific low, .inr spells.power⟩

/-- The canonical literal of a number whose exponents fit 64 bits can be read. -/
private theorem Literal.IsCanonical.ofLiteral?_text {output literal : Literal}
    (canonical : output.IsCanonical literal.sign.negative literal.coefficient literal.scale)
    (inRange : literal.InRange) : ofLiteral? output.text = some literal.number := by
  have fits : Integer.FitsInt64 output.power := by
    rcases canonical.power with none | first
    · rw [none]
      decide
    · have positive := List.length_pos_iff.2 (Numeral.decimal_ne_nil literal.coefficient)
      have lower := inRange.scale.1
      have upper := inRange.reach.2
      rw [first, adjusted]
      constructor <;> omega
  rw [output.ofLiteral?_text fits, canonical.number]
  rfl

namespace Special

def shown : Special → String
  | infinity => "Infinity"
  | nan => "NaN"
  | signalingNaN => "sNaN"

private theorem isNamed_shown (special : Special) : special.IsNamed special.shown.toList := by
  cases special <;> rw [IsNamed] <;> decide

private theorem text_number (special : Special) (negative : Bool) :
    (special.number negative).text =
      (Sign.ofNegative negative).text ++ special.shown.toList := by
  cases special <;> cases negative <;> rfl

private theorem ofLiteral?_text (special : Special) (negative : Bool) :
    ofLiteral? (special.number negative).text = some (special.number negative) := by
  rw [text_number, ofLiteral?_of_isNamed special.isNamed_shown, Sign.negative_ofNegative]

end Special

/-! ## Canonical texts -/

/-- However a text is read, its exponents fit 64 bits. -/
def InRange (text : String) : Prop :=
  ∀ literal : Literal, literal.text = text.toList → literal.InRange

private theorem inRange_of_literal {text : String} {literal : Literal}
    (spelled : literal.text = text.toList) (inRange : literal.InRange) : InRange text := by
  intro other otherSpelled
  rcases Literal.number_eq_of_text_eq (otherSpelled.trans spelled.symm) with ⟨number, power⟩
  simp only [Literal.number, finite.injEq] at number
  have scale := inRange.scale
  have reach := inRange.reach
  rw [← number.2.2] at scale
  rw [← number.2.1, ← number.2.2] at reach
  exact ⟨power ▸ inRange.power, scale, reach⟩

section Canonical

variable {text : String} {number : Decimal} (inRange : InRange text)

include inRange

private theorem ofLiteral?_iff_writes :
    ofLiteral? text.toList = some number ↔ Writes text.toList number :=
  ofLiteral?_eq_some_iff fun literal spelled => (inRange literal spelled).power

private theorem canonical?_of_writes (writes : Writes text.toList number) :
    canonical? text = some (String.ofList number.text) := by
  rw [canonical?, (ofLiteral?_iff_writes inRange).2 writes, Option.map_some]

/-- The canonical text of what a text writes is read as that. -/
private theorem ofLiteral?_text_of_writes (writes : Writes text.toList number) :
    ofLiteral? number.text = some number := by
  generalize spelled : text.toList = characters at writes
  cases writes with
  | finite literal =>
      rcases exists_isCanonical literal.sign.negative literal.coefficient literal.scale with
        ⟨output, canonical⟩
      rw [Literal.number, ← canonical.text]
      exact canonical.ofLiteral?_text (inRange literal spelled.symm)
  | special sign named => exact Special.ofLiteral?_text _ _

private theorem exists_writes_of_canonical? {output : String}
    (printed : canonical? text = some output) :
    ∃ number, Writes text.toList number ∧ output = String.ofList number.text := by
  rcases Option.map_eq_some_iff.1 printed with ⟨number, read, rfl⟩
  exact ⟨number, (ofLiteral?_iff_writes inRange).1 read, rfl⟩

/-- A canonical text stays as it is. -/
theorem canonical?_of_canonical? {output : String} (printed : canonical? text = some output) :
    canonical? output = some output := by
  rcases exists_writes_of_canonical? inRange printed with ⟨number, writes, rfl⟩
  rw [canonical?, String.toList_ofList, ofLiteral?_text_of_writes inRange writes, Option.map_some]

end Canonical

/-- What the canonical text of a text is, if there is one. -/
structure Canonicalizes (text : String) : Prop where
  accepts_iff : (∃ output, canonical? text = some output) ↔
    ∃ number, Writes text.toList number
  finite : ∀ literal : Literal, literal.text = text.toList →
    ∃ output : Literal,
      output.IsCanonical literal.sign.negative literal.coefficient literal.scale ∧
        canonical? text = some (String.ofList output.text) ∧
        ofLiteral? output.text = some literal.number
  special : ∀ (sign : Sign) (special : Special) (name : List Char), special.IsNamed name →
    sign.text ++ name = text.toList →
      canonical? text =
        some (String.ofList ((Sign.ofNegative sign.negative).text ++ special.shown.toList))
  /-- The text tells the number, and nothing else. -/
  shared_iff : ∀ {other : String} {number otherNumber : Decimal}, InRange other →
    Writes text.toList number → Writes other.toList otherNumber →
      (canonical? other = canonical? text ↔ otherNumber = number)
  stable : ∀ {output : String}, canonical? text = some output → canonical? output = some output

theorem canonicalizes {text : String} (inRange : InRange text) : Canonicalizes text where
  accepts_iff := by
    constructor
    · rintro ⟨output, printed⟩
      rcases exists_writes_of_canonical? inRange printed with ⟨number, writes, -⟩
      exact ⟨number, writes⟩
    · rintro ⟨number, writes⟩
      exact ⟨_, canonical?_of_writes inRange writes⟩
  finite literal spelled := by
    rcases exists_isCanonical literal.sign.negative literal.coefficient literal.scale with
      ⟨output, canonical⟩
    refine ⟨output, canonical, ?_, canonical.ofLiteral?_text (inRange literal spelled)⟩
    rw [canonical.text]
    exact canonical?_of_writes inRange (spelled ▸ .finite literal)
  special sign special name named spelled := by
    rw [canonical?_of_writes inRange (spelled ▸ Writes.special sign named), Special.text_number]
  shared_iff := by
    intro other number otherNumber otherInRange writes otherWrites
    rw [canonical?_of_writes inRange writes, canonical?_of_writes otherInRange otherWrites,
      Option.some.injEq, String.ofList_inj]
    constructor
    · intro same
      have read := ofLiteral?_text_of_writes otherInRange otherWrites
      rw [same, ofLiteral?_text_of_writes inRange writes] at read
      exact (Option.some.inj read).symm
    · rintro rfl
      rfl
  stable := canonical?_of_canonical? inRange

/-- Zeros in front are left out, and those behind are kept. -/
theorem canonicalizes_zeros :
    InRange "+0012.50e-9" ∧ Canonicalizes "+0012.50e-9" ∧
      canonical? "+0012.50e-9" = some "1.250E-8" := by
  have inRange : InRange "+0012.50e-9" :=
    @inRange_of_literal _ ⟨.plus, ['0', '0', '1', '2'], some ['5', '0'],
      some ⟨false, ⟨.minus, ['9'], by decide, List.all_eq_true.1 (by decide)⟩⟩, by decide,
      List.all_eq_true.1 (by decide)⟩ (by decide)
      ⟨by decide, by decide, by decide⟩
  exact ⟨inRange, canonicalizes inRange, by decide +kernel⟩

end Decimal

end PickleTrial
