import PickleTrial.Number.Decimal
import PickleTrial.Number.FloatText
import PickleTrial.Proofs.Number.Literal
import PickleTrial.Proofs.Number.Shortest

/-! Floating-point text read back. A reader takes a sign, a name or digits with a point and a
power of ten, and gives the number nearest to what they stand for. The text of a number reads
back as that number bit for bit, but that every NaN reads back as the same one. -/

namespace PickleTrial

/-- The NaN without a sign or a payload. -/
def Binary64.nan : Binary64 :=
  ⟨0x7ff8000000000000⟩

namespace FloatText

/-! ## The reader -/

/-- The decimal that digits with a point and a power of ten stand for. -/
def decimal? (body : List Char) : Option Shortest.Decimal :=
  let (significand, exponent) := Decimal.splitAtFirst (· = 'e') body
  let (whole, fraction) := Decimal.splitAtFirst (· = '.') significand
  let fraction := fraction.getD []
  (Numeral.ofDecimal? (whole ++ fraction)).bind fun coefficient =>
    ((exponent.map Integer.ofLiteral?).getD (some 0)).map fun power =>
      ⟨coefficient, power - fraction.length⟩

def unsigned? (body : List Char) : Option Binary64 :=
  if body = ['n', 'a', 'n'] then some .nan
  else if body = ['i', 'n', 'f'] then some (.ofFields false 2047 0)
  else
    (decimal? body).map fun decimal =>
      let value := Shortest.scaled decimal.coefficient 10 decimal.scale
      Binary64.nearest value.1 value.2

def read? (text : List Char) : Option Binary64 :=
  let (negative, body) := Decimal.splitSign text
  (unsigned? body).map fun number =>
    if negative then ⟨number.bits + BitVec.ofNat 64 (2 ^ 63)⟩ else number

/-! ## Digits, points and powers -/

theorem splitAtFirst_append {separator : Char → Bool} {before : List Char} {sign : Char}
    (none : ∀ character ∈ before, separator character = false) (found : separator sign = true)
    (behind : List Char) :
    Decimal.splitAtFirst separator (before ++ sign :: behind) = (before, some behind) := by
  induction before with
  | nil => rw [List.nil_append, Decimal.splitAtFirst, if_pos found]
  | cons head tail induction =>
      have later := induction fun character member => none character (List.mem_cons_of_mem _ member)
      rw [List.cons_append, Decimal.splitAtFirst, if_neg (by simp [none head List.mem_cons_self]),
        later]

theorem splitAtFirst_of_notMem {separator : Char → Bool} {text : List Char}
    (missing : ∀ character ∈ text, separator character = false) :
    Decimal.splitAtFirst separator text = (text, none) := by
  induction text with
  | nil => rfl
  | cons head tail induction =>
      have later := induction fun character member =>
        missing character (List.mem_cons_of_mem _ member)
      rw [Decimal.splitAtFirst, if_neg (by simp [missing head List.mem_cons_self]), later]

def IsDigits (digits : List Char) : Prop :=
  ∀ character ∈ digits, character.isDigit

theorem IsDigits.append {first second : List Char} (left : IsDigits first)
    (right : IsDigits second) : IsDigits (first ++ second) := by
  intro character member
  rcases List.mem_append.1 member with inFirst | inSecond
  · exact left character inFirst
  · exact right character inSecond

theorem isDigits_replicate (count : Nat) : IsDigits (List.replicate count '0') := by
  intro character member
  rw [List.eq_of_mem_replicate member]
  rfl

theorem isDigits_decimal (value : Nat) : IsDigits (Numeral.decimal value) :=
  fun _ => Numeral.isDigit_of_mem_decimal

theorem IsDigits.notMem {digits : List Char} (all : IsDigits digits) (sign : Char)
    (noDigit : sign.isDigit = false) : ∀ character ∈ digits, decide (character = sign) = false := by
  intro character member
  have digit := all character member
  apply decide_eq_false
  intro same
  subst same
  rw [noDigit] at digit
  cases digit

/-- The power of ten written behind a number is read back. -/
private theorem ofLiteral?_powerText (power : Int) :
    ∃ exponent, powerText power = 'e' :: exponent ∧ Integer.ofLiteral? exponent = some power := by
  have padded : Numeral.ofDecimal? (if (Numeral.decimal power.natAbs).length < 2 then
      '0' :: Numeral.decimal power.natAbs else Numeral.decimal power.natAbs) =
        some power.natAbs := by
    split
    · have digits : IsDigits ('0' :: Numeral.decimal power.natAbs) :=
        (isDigits_replicate 1).append (isDigits_decimal _)
      rw [Numeral.ofDecimal?_of_isDigit (List.cons_ne_nil _ _) digits, Nat.ofDigitChars_cons]
      exact congrArg some Nat.ofDigitChars_ten_toDigits
    · exact Numeral.ofDecimal?_decimal _
  refine ⟨_, rfl, ?_⟩
  by_cases negative : power < 0
  · have magnitude : -(power.natAbs : Int) = power := by omega
    rw [if_pos negative, Integer.ofLiteral?, padded]
    exact congrArg some magnitude
  · have magnitude : (power.natAbs : Int) = power := by omega
    rw [if_neg negative, Integer.ofLiteral?, padded]
    exact congrArg some magnitude

theorem IsDigits.notMem_point {whole fraction : List Char} (left : IsDigits whole)
    (right : IsDigits fraction) :
    ∀ character ∈ whole ++ '.' :: fraction, decide (character = 'e') = false := by
  intro character member
  rcases List.mem_append.1 member with inWhole | inRest
  · exact left.notMem 'e' (by decide) character inWhole
  · rcases List.mem_cons.1 inRest with rfl | inFraction
    · decide
    · exact right.notMem 'e' (by decide) character inFraction

private theorem decimal?_point {whole fraction : List Char} (left : IsDigits whole)
    (right : IsDigits fraction) (nonempty : whole ++ fraction ≠ []) :
    decimal? (whole ++ '.' :: fraction) =
      some ⟨Nat.ofDigitChars 10 (whole ++ fraction) 0, -(fraction.length : Int)⟩ := by
  have noPower := left.notMem_point right
  simp only [decimal?, splitAtFirst_of_notMem noPower,
    splitAtFirst_append (left.notMem '.' (by decide)) (decide_eq_true rfl), Option.getD_some,
    Numeral.ofDecimal?_of_isDigit nonempty (left.append right), Option.bind_some,
    Option.map_none, Option.getD_none, Option.map_some, zero_sub]

private theorem decimal?_pointPower {whole fraction : List Char} (left : IsDigits whole)
    (right : IsDigits fraction) (nonempty : whole ++ fraction ≠ []) (power : Int) :
    decimal? (whole ++ '.' :: (fraction ++ powerText power)) =
      some ⟨Nat.ofDigitChars 10 (whole ++ fraction) 0, power - fraction.length⟩ := by
  rcases ofLiteral?_powerText power with ⟨exponent, written, readable⟩
  have noPower := left.notMem_point right
  have regrouped : whole ++ '.' :: (fraction ++ powerText power) =
      (whole ++ '.' :: fraction) ++ 'e' :: exponent := by
    rw [written]
    simp
  simp only [decimal?, regrouped, splitAtFirst_append noPower (decide_eq_true rfl),
    splitAtFirst_append (left.notMem '.' (by decide)) (decide_eq_true rfl), Option.getD_some,
    Numeral.ofDecimal?_of_isDigit nonempty (left.append right), Option.bind_some,
    Option.map_some, readable]

private theorem decimal?_power {digits : List Char} (all : IsDigits digits) (nonempty : digits ≠ [])
    (power : Int) :
    decimal? (digits ++ powerText power) = some ⟨Nat.ofDigitChars 10 digits 0, power⟩ := by
  rcases ofLiteral?_powerText power with ⟨exponent, written, readable⟩
  have noPoint := splitAtFirst_of_notMem (all.notMem '.' (by decide))
  simp only [decimal?, written,
    splitAtFirst_append (all.notMem 'e' (by decide)) (decide_eq_true rfl), noPoint,
    Option.getD_none, List.append_nil, Numeral.ofDecimal?_of_isDigit nonempty all,
    Option.bind_some, Option.map_some, Option.getD_some, readable, List.length_nil,
    Nat.cast_zero, sub_zero]

/-! ## Layouts -/

/-- A body is read as a decimal of this value. -/
def StandsFor (body : List Char) (value : ℚ) : Prop :=
  ∃ decimal, decimal? body = some decimal ∧
    (decimal.coefficient : ℚ) * 10 ^ decimal.scale = value

private theorem StandsFor.of_decimal? {body : List Char} {coefficient : Nat} {scale : Int}
    {value : ℚ} (readable : decimal? body = some ⟨coefficient, scale⟩)
    (equal : (coefficient : ℚ) * 10 ^ scale = value) : StandsFor body value :=
  ⟨_, readable, equal⟩

theorem ofDigitChars_zeros (count : Nat) (digits : List Char) :
    Nat.ofDigitChars 10 (List.replicate count '0' ++ digits) 0 = Nat.ofDigitChars 10 digits 0 := by
  rw [Nat.ofDigitChars_append, Nat.ofDigitChars_replicate_zero, Nat.mul_zero]

private theorem ofDigitChars_append_zeros (digits : List Char) (count : Nat) :
    Nat.ofDigitChars 10 (digits ++ List.replicate count '0') 0 =
      10 ^ count * Nat.ofDigitChars 10 digits 0 := by
  rw [Nat.ofDigitChars_append, Nat.ofDigitChars_replicate_zero]

private theorem positional_standsFor {digits : List Char} (all : IsDigits digits)
    (nonempty : digits ≠ []) (power : Int) :
    StandsFor (positional digits power)
      (Nat.ofDigitChars 10 digits 0 * 10 ^ (power + 1 - digits.length)) := by
  rw [positional]
  split
  · rename_i negative
    apply StandsFor.of_decimal? (decimal?_point (isDigits_replicate 1)
      ((isDigits_replicate _).append all) (by simp))
    rw [ofDigitChars_zeros, ofDigitChars_zeros, List.length_append, List.length_replicate]
    congr 2
    omega
  · rename_i nonnegative
    simp only
    split
    · rename_i short
      apply StandsFor.of_decimal? (decimal?_point (all.append (isDigits_replicate _))
        (isDigits_replicate 1) (by simp))
      generalize equal : power.toNat + 1 - digits.length = zeros
      have exponent : power + 1 - digits.length = zeros := by omega
      rw [List.append_assoc, List.replicate_append_replicate, ofDigitChars_append_zeros, exponent]
      push_cast
      rw [zpow_neg, zpow_natCast, zpow_natCast, List.length_singleton, pow_add]
      field_simp
    · rename_i long
      apply StandsFor.of_decimal? (decimal?_point
        (fun character member => all character (List.mem_of_mem_take member))
        (fun character member => all character (List.mem_of_mem_drop member))
        (by rwa [List.take_append_drop]))
      rw [List.take_append_drop, List.length_drop]
      congr 2
      omega

private theorem scientific_standsFor {digits : List Char} (all : IsDigits digits)
    (nonempty : digits ≠ []) (power : Int) :
    StandsFor (scientific digits power)
      (Nat.ofDigitChars 10 digits 0 * 10 ^ (power + 1 - digits.length)) := by
  unfold scientific
  split
  · exact absurd rfl nonempty
  · rename_i digit
    apply StandsFor.of_decimal? (decimal?_power all nonempty power)
    rw [List.length_singleton, Nat.cast_one, add_sub_cancel_right]
  · rename_i first rest _
    have tail : IsDigits rest := fun character member =>
      all character (List.mem_cons_of_mem _ member)
    have head : IsDigits [first] := fun character member =>
      all character (List.mem_singleton.1 member ▸ List.mem_cons_self)
    apply StandsFor.of_decimal? (decimal?_pointPower head tail (by simp) power)
    congr 2
    rw [List.length_cons]
    push_cast
    ring

theorem layout_standsFor {digits : List Char} (all : IsDigits digits) (nonempty : digits ≠ [])
    (power : Int) :
    StandsFor (layout digits power)
      (Nat.ofDigitChars 10 digits 0 * 10 ^ (power + 1 - digits.length)) := by
  rw [layout]
  split
  · exact positional_standsFor all nonempty power
  · exact scientific_standsFor all nonempty power

/-! ## Significant digits -/

theorem significant_isDigits (decimal : Shortest.Decimal) : IsDigits (significant decimal).1 := by
  intro character member
  apply isDigits_decimal decimal.coefficient character
  exact List.mem_reverse.1 ((List.dropWhile_sublist _).mem (List.mem_reverse.1 member))

theorem exists_eq_significant_append (decimal : Shortest.Decimal) :
    ∃ zeros, Numeral.decimal decimal.coefficient =
      (significant decimal).1 ++ List.replicate zeros '0' := by
  have split := List.takeWhile_append_dropWhile
    (p := (· = '0')) (l := (Numeral.decimal decimal.coefficient).reverse)
  have zeros : (Numeral.decimal decimal.coefficient).reverse.takeWhile (· = '0') =
      List.replicate ((Numeral.decimal decimal.coefficient).reverse.takeWhile (· = '0')).length
        '0' := by
    rw [List.eq_replicate_iff]
    exact ⟨rfl, fun character member =>
      of_decide_eq_true (List.all_eq_true.1 List.all_takeWhile character member)⟩
  refine ⟨((Numeral.decimal decimal.coefficient).reverse.takeWhile (· = '0')).length, ?_⟩
  rw [← List.reverse_inj, List.reverse_append, List.reverse_replicate, ← zeros]
  simp only [significant, List.reverse_reverse]
  exact split.symm

theorem significant_value (decimal : Shortest.Decimal) :
    (Nat.ofDigitChars 10 (significant decimal).1 0 : ℚ) *
        10 ^ ((significant decimal).2 + 1 - (significant decimal).1.length) =
      decimal.coefficient * 10 ^ decimal.scale := by
  rcases exists_eq_significant_append decimal with ⟨zeros, split⟩
  have coefficient : decimal.coefficient =
      10 ^ zeros * Nat.ofDigitChars 10 (significant decimal).1 0 := by
    rw [← ofDigitChars_append_zeros, ← split]
    exact Nat.ofDigitChars_ten_toDigits.symm
  have power : (significant decimal).2 + 1 - (significant decimal).1.length =
      decimal.scale + zeros := by
    have length := congrArg List.length split
    rw [List.length_append, List.length_replicate] at length
    have unfolded : (significant decimal).2 =
      decimal.scale + (Numeral.decimal decimal.coefficient).length - 1 := rfl
    omega
  rw [power, zpow_add₀ (by norm_num), zpow_natCast]
  conv => rhs; rw [coefficient]
  push_cast
  ring

theorem significant_ne_nil {decimal : Shortest.Decimal} (positive : decimal.coefficient ≠ 0) :
    (significant decimal).1 ≠ [] := by
  intro none
  rcases exists_eq_significant_append decimal with ⟨zeros, split⟩
  apply positive
  rw [← Nat.ofDigitChars_ten_toDigits (n := decimal.coefficient)]
  have digits : Nat.toDigits 10 decimal.coefficient = List.replicate zeros '0' := by
    rw [none] at split
    exact split
  rw [digits, Nat.ofDigitChars_replicate_zero, Nat.mul_zero]

/-! ## Numbers by their parts -/

/-- A finite number other than zero is a significand times a power of two. -/
theorem canonical_of_finite {number : Binary64} (finite : number.exponentField ≠ 2047)
    (nonzero : number.significand ≠ 0) :
    Shortest.Canonical number.significand number.exponent := by
  have field : number.exponentField < 2 ^ 11 := BitVec.isLt _
  have fraction : number.fraction < 2 ^ 52 := BitVec.isLt _
  rw [Binary64.significand_eq] at *
  rw [Binary64.exponent]
  split at nonzero <;> rename_i least
  · rw [if_pos least]
    exact ⟨by omega, by omega, by omega, by omega, fun _ => by omega⟩
  · rw [if_neg least]
    exact ⟨by omega, by omega, by omega, by omega, fun _ => by omega⟩

theorem bits_of_parts (number : Binary64) :
    number.bits.toNat = (if number.negative then 2 ^ 63 else 0) +
      (number.exponentField * 2 ^ 52 + number.fraction) := by
  have bound := number.bits.isLt
  rw [Binary64.exponentField_eq, Binary64.fraction_eq]
  split <;> rename_i sign <;> rw [Binary64.negative_iff] at sign
  · omega
  · omega

private theorem eq_of_unsigned {number : Binary64} {pattern : Nat}
    (parts : pattern = number.exponentField * 2 ^ 52 + number.fraction) :
    (if number.negative then
      (⟨BitVec.ofNat 64 pattern + BitVec.ofNat 64 (2 ^ 63)⟩ : Binary64)
    else ⟨BitVec.ofNat 64 pattern⟩) = number := by
  have bits := bits_of_parts number
  have bound := number.bits.isLt
  rw [← parts] at bits
  split <;> rename_i sign
  · rw [if_pos sign] at bits
    refine congrArg Binary64.mk (BitVec.eq_of_toNat_eq ?_)
    rw [BitVec.toNat_add, BitVec.toNat_ofNat, BitVec.toNat_ofNat]
    omega
  · rw [if_neg sign] at bits
    refine congrArg Binary64.mk (BitVec.eq_of_toNat_eq ?_)
    rw [BitVec.toNat_ofNat]
    omega

/-! ## Reading a number back -/

private theorem exists_layout_eq_cons {digits : List Char} (all : IsDigits digits)
    (nonempty : digits ≠ []) (power : Int) :
    ∃ head tail, layout digits power = head :: tail ∧ head.isDigit := by
  rcases digits with _ | ⟨first, rest⟩
  · exact absurd rfl nonempty
  · have digit := all first List.mem_cons_self
    rw [layout]
    split
    · rw [positional]
      split
      · exact ⟨'0', _, rfl, by decide⟩
      · simp only
        split
        · exact ⟨first, _, rfl, digit⟩
        · exact ⟨first, _, rfl, digit⟩
    · cases rest with
      | nil => exact ⟨first, _, rfl, digit⟩
      | cons => exact ⟨first, _, rfl, digit⟩

private theorem unsigned?_of_digit {head : Char} (digit : head.isDigit) (tail : List Char) :
    unsigned? (head :: tail) = (decimal? (head :: tail)).map fun decimal =>
      let value := Shortest.scaled decimal.coefficient 10 decimal.scale
      Binary64.nearest value.1 value.2 := by
  have noName : head ≠ 'n' ∧ head ≠ 'i' := by
    constructor <;> rintro rfl <;> exact absurd digit (by decide)
  rw [unsigned?, if_neg (by simp [noName.1]), if_neg (by simp [noName.2])]

/-- The magnitude of a finite number begins with a digit and reads back as the number without
its sign. -/
private theorem unsigned?_magnitude {number : Binary64} (finite : number.exponentField ≠ 2047) :
    (∃ head tail, magnitude number = head :: tail ∧ head.isDigit) ∧
      unsigned? (magnitude number) =
        some (Binary64.ofCanonical number.significand number.exponent) := by
  rw [magnitude]
  split
  · rename_i zero
    refine ⟨⟨'0', ['.', '0'], rfl, by decide⟩, ?_⟩
    have exponent : number.exponent = -1074 := by
      rw [Binary64.significand_eq] at zero
      rw [Binary64.exponent]
      split at zero <;> omega
    rw [zero, exponent]
    rfl
  · rename_i nonzero
    have canonical := canonical_of_finite finite nonzero
    have reads := Shortest.decimal_readsBack canonical
    have within := (Shortest.Decimal.readsBack_iff canonical.positive).1 reads
    have coefficient := within.coefficient_ne_zero canonical.positive
    simp only
    generalize Shortest.decimal number.significand number.exponent = decimal at *
    have all := significant_isDigits decimal
    have nonempty := significant_ne_nil coefficient
    rcases exists_layout_eq_cons all nonempty (significant decimal).2 with
        ⟨head, tail, begins, digit⟩
    refine ⟨⟨head, tail, begins, digit⟩, ?_⟩
    rcases layout_standsFor all nonempty (significant decimal).2 with ⟨found, readable, value⟩
    rw [significant_value] at value
    rw [begins] at readable
    rw [begins, unsigned?_of_digit digit, readable, Option.map_some, Option.some.injEq]
    apply Binary64.nearest_of_within canonical
    · exact (Shortest.scaled_denominator_pos (by omega) _ _).ne'
    · rw [Prod.mk.eta, Shortest.rational_scaled]
      push_cast
      rw [value]
      exact within

/-- The text of a number reads back as the number, and the text of a NaN as the NaN that has
neither sign nor payload. -/
theorem read?_text (number : Binary64) :
    read? (text number) = some (if number.isNaN then .nan else number) := by
  rw [text]
  split
  · rfl
  · rename_i noNaN
    by_cases infinite : number.isInfinite
    · simp only [if_pos infinite]
      have parts := of_decide_eq_true infinite
      have pattern : 2047 * 2 ^ 52 = number.exponentField * 2 ^ 52 + number.fraction := by
        rw [parts.1, parts.2, Nat.add_zero]
      rw [← eq_of_unsigned pattern]
      split <;> rfl
    · have finite : number.exponentField ≠ 2047 := by
        intro field
        simp only [Binary64.isNaN, Binary64.isInfinite, field, true_and,
          decide_eq_true_eq] at noNaN infinite
        exact noNaN infinite
      rcases unsigned?_magnitude finite with ⟨⟨head, tail, begins, digit⟩, readable⟩
      have free : Sign.Free (head :: tail) := by
        constructor <;> rintro ⟨⟩ <;> exact absurd digit (by decide)
      have pattern : (number.exponent + 1074).toNat * 2 ^ 52 + number.significand =
          number.exponentField * 2 ^ 52 + number.fraction := by
        rw [Binary64.significand_eq, Binary64.exponent]
        split <;> omega
      have whole := eq_of_unsigned pattern
      rw [if_neg infinite]
      split <;> rename_i sign
      · rw [if_pos sign] at whole
        rw [read?, Decimal.splitSign]
        simp only [readable, Option.map_some, if_true, Option.some.injEq]
        exact whole
      · rw [if_neg sign] at whole
        rw [begins] at readable
        have unsigned := @Decimal.splitSign_append .none _ fun _ => free
        rw [Sign.text, List.nil_append] at unsigned
        rw [read?, begins, unsigned]
        simp only [Sign.negative, readable, Option.map_some, Option.some.injEq]
        exact whole

/-! ## The characters of a text -/

private def AllPrintable (text : List Char) : Prop :=
  ∀ character ∈ text, Numeral.IsPrintable character

private theorem AllPrintable.nil : AllPrintable [] := by
  intro character member
  cases member

private theorem AllPrintable.append {first second : List Char} (left : AllPrintable first)
    (right : AllPrintable second) : AllPrintable (first ++ second) := by
  intro character member
  rcases List.mem_append.1 member with inFirst | inSecond
  · exact left character inFirst
  · exact right character inSecond

private theorem AllPrintable.cons {head : Char} {tail : List Char}
    (first : Numeral.IsPrintable head) (rest : AllPrintable tail) :
    AllPrintable (head :: tail) := by
  intro character member
  rcases List.mem_cons.1 member with rfl | inTail
  · exact first
  · exact rest character inTail

private theorem IsDigits.allPrintable {digits : List Char} (all : IsDigits digits) :
    AllPrintable digits :=
  fun character member => Numeral.isPrintable_of_isDigit (all character member)

private theorem positional_allPrintable {digits : List Char} (all : IsDigits digits)
    (power : Int) : AllPrintable (positional digits power) := by
  rw [positional]
  split
  · exact .cons (by decide) (.cons (by decide)
      ((isDigits_replicate _).append all).allPrintable)
  · simp only
    split
    · exact (all.append (isDigits_replicate _)).allPrintable.append
        (.cons (by decide) (.cons (by decide) (by simp [AllPrintable])))
    · refine AllPrintable.append ?_ (.cons (by decide) ?_)
      · exact fun character member => all.allPrintable character (List.mem_of_mem_take member)
      · exact fun character member => all.allPrintable character (List.mem_of_mem_drop member)

private theorem powerText_allPrintable (power : Int) : AllPrintable (powerText power) := by
  rw [powerText]
  refine .cons (by decide) (.cons ?_ ?_)
  · split <;> decide
  · split
    · exact .cons (by decide) (isDigits_decimal _).allPrintable
    · exact (isDigits_decimal _).allPrintable

private theorem scientific_allPrintable {digits : List Char} (all : IsDigits digits)
    (power : Int) : AllPrintable (scientific digits power) := by
  rcases digits with _ | ⟨first, rest⟩
  · exact powerText_allPrintable power
  · have printable := all.allPrintable
    have head := printable first List.mem_cons_self
    rcases rest with _ | ⟨second, rest⟩
    · exact .cons head (powerText_allPrintable power)
    · refine .cons head (.cons (by decide) (AllPrintable.append ?_ (powerText_allPrintable power)))
      exact fun character member => printable character (List.mem_cons_of_mem _ member)

/-- The text of a number is printable ASCII. -/
theorem isPrintable_of_mem_text {number : Binary64} {character : Char}
    (member : character ∈ text number) : Numeral.IsPrintable character := by
  have layoutPrintable {digits : List Char} (all : IsDigits digits) (power : Int) :
      AllPrintable (layout digits power) := by
    rw [layout]
    split
    · exact positional_allPrintable all power
    · exact scientific_allPrintable all power
  have magnitudePrintable : AllPrintable (magnitude number) := by
    rw [magnitude]
    split
    · exact layoutPrintable (isDigits_replicate 1) 0
    · exact layoutPrintable (significant_isDigits _) _
  have bodyPrintable : AllPrintable
      (if number.isInfinite then ['i', 'n', 'f'] else magnitude number) := by
    split
    · exact .cons (by decide) (.cons (by decide) (.cons (by decide) .nil))
    · exact magnitudePrintable
  rw [text] at member
  split at member
  · have name : AllPrintable ['n', 'a', 'n'] :=
      .cons (by decide) (.cons (by decide) (.cons (by decide) .nil))
    exact name character member
  · simp only at member
    split at member
    · exact AllPrintable.cons (by decide) bodyPrintable character member
    · exact bodyPrintable character member

end FloatText

end PickleTrial
