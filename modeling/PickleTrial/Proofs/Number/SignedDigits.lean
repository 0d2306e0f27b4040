import PickleTrial.Number.SignedDigits
import PickleTrial.Proofs.Number.Literal
import PickleTrial.Proofs.Number.TwosComplement

/-! Literals of integers converted. Every literal of an integer is read as the one sign and the one
run of digits that the integer has. The digits come to its bytes in base 256 without an overflow on
the way, and to a word of 64 bits exactly where the integer has room in one. -/

namespace PickleTrial

/-! ## Numbers in base 256 -/

/-- A number in base 256, lowest byte first, without a zero at the high end. -/
structure Bytes.IsBase256 (bytes : Bytes) (value : Nat) : Prop where
  value : bytes.toNat = value
  high : bytes.getLast? ≠ some 0

private theorem Bytes.IsBase256.eq_nil_iff {bytes : Bytes} {value : Nat}
    (converted : bytes.IsBase256 value) : bytes = [] ↔ value = 0 := by
  rw [← converted.value]
  constructor
  · rintro rfl
    rfl
  · intro zero
    by_contra nonempty
    exact toNat_ne_zero converted.high nonempty zero

namespace SignedDigits

/-! ## Reading -/

/-- The sign and the digits of an integer. -/
def ofInt (value : Int) : SignedDigits :=
  ⟨value < 0, Numeral.decimal value.natAbs⟩

private theorem isDigit_of_mem_ofInt {value : Int} {digit : Char}
    (member : digit ∈ (ofInt value).digits) : digit.isDigit :=
  Numeral.isDigit_of_mem_decimal member

private theorem ofDigitChars_ofInt (value : Int) :
    Nat.ofDigitChars 10 (ofInt value).digits 0 = value.natAbs :=
  Nat.ofDigitChars_ten_toDigits

private theorem signed_natAbs (value : Int) :
    (if decide (value < 0) then -(value.natAbs : Int) else value.natAbs) = value := by
  simp only [decide_eq_true_eq]
  split <;> omega

theorem text_ofInt (value : Int) : (ofInt value).text = Numeral.signedDecimal value := by
  simp only [text, ofInt, Numeral.signedDecimal, decide_eq_true_eq]

/-- Only zeros are left out. -/
private theorem exists_zeros_append_trimmed {digits : List Char} (nonempty : digits ≠ []) :
    ∃ zeros, digits = List.replicate zeros '0' ++ trimmed digits := by
  induction digits with
  | nil => exact absurd rfl nonempty
  | cons head tail induction =>
      by_cases zero : head = '0'
      · subst zero
        by_cases last : tail = []
        · exact ⟨0, by rw [last]; rfl⟩
        · rcases induction last with ⟨zeros, split⟩
          have fewer : trimmed ('0' :: tail) = trimmed tail := rfl
          exact ⟨zeros + 1, by rw [fewer, List.replicate_succ, List.cons_append, ← split]⟩
      · have kept : trimmed (head :: tail) = head :: tail := by
          rw [trimmed, List.dropWhile_cons_of_neg (by simpa using zero)]
          rfl
        exact ⟨0, kept.symm⟩

private theorem trimmed_ne_nil (digits : List Char) : trimmed digits ≠ [] := by
  rw [trimmed]
  split
  · exact List.cons_ne_nil _ _
  · assumption

/-- A zero is in front only where it is alone. -/
private theorem eq_of_head?_trimmed {digits : List Char}
    (zero : (trimmed digits).head? = some '0') : trimmed digits = ['0'] := by
  rw [trimmed] at zero ⊢
  split at zero
  · rename_i empty
    exact if_pos empty
  · have kept := List.head?_dropWhile_not (fun digit : Char => decide (digit = '0')) digits
    rw [zero] at kept
    cases kept

/-- What is left of a run of digits is the numeral of its number. -/
private theorem trimmed_eq_decimal {digits : List Char} (nonempty : digits ≠ [])
    (digit : ∀ character ∈ digits, character.isDigit) :
    trimmed digits = Numeral.decimal (Nat.ofDigitChars 10 digits 0) := by
  rcases exists_zeros_append_trimmed nonempty with ⟨zeros, split⟩
  have same : Nat.ofDigitChars 10 digits 0 = Nat.ofDigitChars 10 (trimmed digits) 0 := by
    rw [split, Nat.ofDigitChars_append, Nat.ofDigitChars_replicate_zero, Nat.mul_zero, ← split]
  have left : ∀ character ∈ trimmed digits, character.isDigit := by
    intro character member
    apply digit character
    rw [split]
    exact List.mem_append_right _ member
  rw [same, Numeral.decimal_ofDigitChars (trimmed_ne_nil digits) left eq_of_head?_trimmed]

private theorem ofLiteral?_append {sign : Sign} {digits : List Char}
    (free : sign = .none → Sign.Free digits) :
    ofLiteral? (sign.text ++ digits) = ofDigits? sign.negative digits := by
  rw [ofLiteral?, Decimal.splitSign_append free]

/-- A minus sign makes a number negative, unless its digits are those of zero. -/
private theorem negative_eq (sign : Sign) (magnitude : Nat) :
    (sign.negative && decide (Numeral.decimal magnitude ≠ ['0'])) =
      decide (sign.apply magnitude < 0) := by
  have zero_iff : Numeral.decimal magnitude = ['0'] ↔ magnitude = 0 := by
    constructor
    · intro zero
      exact Numeral.eq_zero_of_head?_decimal (congrArg List.head? zero)
    · rintro rfl
      rfl
  rw [Bool.eq_iff_iff, Bool.and_eq_true, decide_eq_true_iff, decide_eq_true_iff, ne_eq, zero_iff]
  cases sign with
  | none | plus => exact iff_of_false nofun (Int.not_lt.2 (Int.natCast_nonneg magnitude))
  | minus =>
      simp only [Sign.negative, Sign.apply, true_and]
      omega

/-- A literal of an integer is read as the sign and the digits of the integer. -/
private theorem ofLiteral?_text (literal : Integer.Literal) :
    ofLiteral? literal.text = some (ofInt literal.value) := by
  rcases literal with ⟨sign, digits, nonempty, digit⟩
  rw [Integer.Literal.text, ofLiteral?_append fun _ => Sign.free_of_isDigit digit, ofDigits?,
    if_pos ⟨nonempty, List.all_eq_true.2 digit⟩, trimmed_eq_decimal nonempty digit, ofInt,
    Integer.Literal.value, Sign.natAbs_apply, ← negative_eq]

private theorem exists_literal_of_ofLiteral? {text : List Char} {number : SignedDigits}
    (read : ofLiteral? text = some number) : ∃ literal : Integer.Literal, literal.text = text := by
  rcases Sign.exists_eq_append text with ⟨sign, digits, rfl, free⟩
  rw [ofLiteral?_append free, ofDigits?] at read
  split at read
  · rename_i given
    exact ⟨⟨sign, digits, given.1, List.all_eq_true.1 given.2⟩, rfl⟩
  · cases read

/-- A text is read as the sign and the digits of the integer that it is a literal of. -/
theorem ofLiteral?_eq_map (text : List Char) :
    ofLiteral? text = (Integer.ofLiteral? text).map ofInt := by
  cases read : Integer.ofLiteral? text with
  | some value =>
      rcases Integer.ofLiteral?_eq_some_iff.1 read with ⟨literal, rfl, rfl⟩
      exact ofLiteral?_text literal
  | none =>
      rw [Option.map_none, Option.eq_none_iff_forall_ne_some]
      intro number found
      rcases exists_literal_of_ofLiteral? found with ⟨literal, rfl⟩
      rw [Integer.ofLiteral?_text] at read
      cases read

/-! ## Conversion to base 256 -/

private theorem toNat_toUInt8 {digit : Char} (isDigit : digit.isDigit) :
    digit.toUInt8.toNat = digit.toNat := by
  have bounds : 48 ≤ digit.toNat ∧ digit.toNat ≤ 57 := Char.isDigit_iff_toNat.1 isDigit
  exact UInt8.toNat_ofNat_of_lt' (show digit.toNat < 256 by omega)

private theorem le_toUInt8 {digit : Char} (isDigit : digit.isDigit) : 48 ≤ digit.toUInt8 := by
  rw [UInt8.le_iff_toNat_le, toNat_toUInt8 isDigit]
  exact (Char.isDigit_iff_toNat.1 isDigit).1

private theorem toNat_digitWord {digit : Char} (isDigit : digit.isDigit) :
    (digitWord digit).toNat = digit.toNat - '0'.toNat := by
  rw [digitWord, UInt8.toNat_toUInt32, UInt8.toNat_sub_of_le _ _ (le_toUInt8 isDigit),
    toNat_toUInt8 isDigit]
  rfl

private theorem toNat_digitWord_le {digit : Char} (isDigit : digit.isDigit) :
    (digitWord digit).toNat ≤ 9 := by
  have bounds : 48 ≤ digit.toNat ∧ digit.toNat ≤ 57 := Char.isDigit_iff_toNat.1 isDigit
  rw [toNat_digitWord isDigit, show '0'.toNat = 48 from rfl]
  omega

private theorem toNat_carryBytes (carry : UInt32) : (carryBytes carry).toNat = carry.toNat := by
  rw [carryBytes, Bytes.toNat_significant, Bytes.toNat_littleEndian]
  exact Nat.mod_eq_of_lt carry.toNat_lt

private theorem toNat_product (byte : UInt8) : (byte.toUInt32 * 10).toNat = 10 * byte.toNat := by
  have bound := byte.toNat_lt
  simp only [UInt32.toNat_mul, UInt8.toNat_toUInt32, UInt32.reduceToNat]
  omega

section Words

variable {carry : UInt32} (small : carry.toNat ≤ 9)

include small

/-- A word has room for ten times a byte and a digit that is carried. -/
private theorem toNat_word (byte : UInt8) :
    (byte.toUInt32 * 10 + carry).toNat = 10 * byte.toNat + carry.toNat := by
  have bound := byte.toNat_lt
  rw [UInt32.toNat_add, toNat_product]
  omega

/-- The low byte of a word and what is carried into the next byte are all of the word. -/
private theorem low_add_carried (byte : UInt8) :
    (byte.toUInt32 * 10 + carry).toUInt8.toNat +
        256 * ((byte.toUInt32 * 10 + carry) >>> 8).toNat =
      10 * byte.toNat + carry.toNat := by
  rw [UInt32.toNat_toUInt8, UInt32.toNat_shiftRight, show UInt32.toNat 8 % 32 = 8 from rfl,
    Nat.shiftRight_eq_div_pow, ← toNat_word small byte]
  exact Nat.mod_add_div _ _

/-- What is carried is again no more than a digit. -/
private theorem carried_le (byte : UInt8) : ((byte.toUInt32 * 10 + carry) >>> 8).toNat ≤ 9 := by
  have bound := byte.toNat_lt
  have whole := low_add_carried small byte
  omega

private theorem toNat_tenfold (bytes : Bytes) :
    (tenfold bytes carry).toNat = 10 * bytes.toNat + carry.toNat := by
  induction bytes generalizing carry with
  | nil => rw [tenfold, toNat_carryBytes, Bytes.toNat, Nat.mul_zero, Nat.zero_add]
  | cons byte rest induction =>
      have whole := low_add_carried small byte
      rw [tenfold, Bytes.toNat, induction (carried_le small byte), Bytes.toNat]
      omega

private theorem eq_nil_of_tenfold_eq_nil {bytes : Bytes} (empty : tenfold bytes carry = []) :
    bytes = [] ∧ carry.toNat = 0 := by
  have value := toNat_tenfold small bytes
  cases bytes with
  | cons => cases empty
  | nil =>
      rw [empty] at value
      exact ⟨rfl, by simpa [Bytes.toNat] using value.symm⟩

/-- Where nothing is carried out of the highest byte, it comes to ten times what it was or more. -/
private theorem getLast?_tenfold {bytes : Bytes} (high : bytes.getLast? ≠ some 0) :
    (tenfold bytes carry).getLast? ≠ some 0 := by
  induction bytes generalizing carry with
  | nil => exact Bytes.getLast?_significant _
  | cons byte rest induction =>
      have whole := low_add_carried small byte
      have further := carried_le small byte
      rw [tenfold]
      cases above : tenfold rest ((byte.toUInt32 * 10 + carry) >>> 8) with
      | cons next more =>
          have restHigh : rest.getLast? ≠ some 0 := by
            intro zero
            exact high (by rw [List.getLast?_cons, zero]; rfl)
          rw [List.getLast?_cons_cons, ← above]
          exact induction further restHigh
      | nil =>
          -- Nothing is carried, so the byte is all of its word.
          rcases eq_nil_of_tenfold_eq_nil further above with ⟨rfl, nothing⟩
          have nonzero : byte.toNat ≠ 0 := fun none =>
            high (congrArg some (UInt8.toNat_inj.1 none))
          intro zero
          have low : (byte.toUInt32 * 10 + carry).toUInt8.toNat = 0 :=
            congrArg UInt8.toNat (Option.some.inj zero)
          omega

end Words

/-- A digit behind a number in base 256. -/
private theorem isBase256_appendDigit {bytes : Bytes} {value : Nat}
    (converted : bytes.IsBase256 value) {digit : Char} (isDigit : digit.isDigit) :
    (appendDigit bytes digit).IsBase256 (10 * value + (digit.toNat - '0'.toNat)) where
  value := by
    rw [appendDigit, toNat_tenfold (toNat_digitWord_le isDigit), converted.value,
      toNat_digitWord isDigit]
  high := getLast?_tenfold (toNat_digitWord_le isDigit) converted.high

private theorem isBase256_foldl {digits : List Char}
    (digit : ∀ character ∈ digits, character.isDigit)
    {bytes : Bytes} {value : Nat} (converted : bytes.IsBase256 value) :
    (digits.foldl appendDigit bytes).IsBase256 (Nat.ofDigitChars 10 digits value) := by
  induction digits generalizing bytes value with
  | nil => exact converted
  | cons head tail induction =>
      have each := List.forall_mem_cons.1 digit
      rw [List.foldl_cons, Nat.ofDigitChars_cons]
      exact induction each.2 (isBase256_appendDigit converted each.1)

/-- The digits come to the bytes of their number, however many there are. -/
private theorem isBase256_magnitude {number : SignedDigits}
    (digit : ∀ character ∈ number.digits, character.isDigit) :
    number.magnitude.IsBase256 (Nat.ofDigitChars 10 number.digits 0) :=
  isBase256_foldl digit ⟨rfl, nofun⟩

private theorem isBase256_ofInt (value : Int) : (ofInt value).magnitude.IsBase256 value.natAbs := by
  rw [← ofDigitChars_ofInt value]
  exact isBase256_magnitude fun _ => isDigit_of_mem_ofInt

/-- Two's complement made of the sign and the bytes is that of the integer. -/
theorem shortestForm_ofInt (value : Int) :
    Integer.shortestForm (ofInt value).negative (ofInt value).magnitude =
      Integer.twosComplement value := by
  have shortest := Integer.isShortest_shortestForm (value < 0) (ofInt value).magnitude
  rw [(isBase256_ofInt value).value, signed_natAbs] at shortest
  exact shortest.eq (Integer.isShortest_twosComplement value)

/-! ## Overflow

The same conversion, given up where an operation on words or bytes leaves them. -/

def product? (left right : UInt32) : Option UInt32 :=
  if left.toBitVec.umulOverflow right.toBitVec then none else some (left * right)

def sum? (left right : UInt32) : Option UInt32 :=
  if left.toBitVec.uaddOverflow right.toBitVec then none else some (left + right)

def digitWord? (digit : Char) : Option UInt32 :=
  if digit.toUInt8.toBitVec.usubOverflow 48 then none else some (digitWord digit)

def tenfold? : Bytes → (carry : UInt32) → Option Bytes
  | [], carry => some (carryBytes carry)
  | byte :: rest, carry => do
      let product ← product? byte.toUInt32 10
      let word ← sum? product carry
      let above ← tenfold? rest (word >>> 8)
      return word.toUInt8 :: above

def appendDigit? (bytes : Bytes) (digit : Char) : Option Bytes := do
  let carry ← digitWord? digit
  tenfold? bytes carry

def magnitude? (number : SignedDigits) : Option Bytes :=
  number.digits.foldlM appendDigit? []

/-- A carry that is no digit can be too much for a word. -/
example : tenfold? [0xff] 0xfffff60a = none := by decide

private theorem product?_eq (byte : UInt8) :
    product? byte.toUInt32 10 = some (byte.toUInt32 * 10) := by
  have bound := byte.toNat_lt
  refine if_neg ?_
  simp only [BitVec.umulOverflow, UInt32.toNat_toBitVec, UInt8.toNat_toUInt32, UInt32.reduceToNat,
    ge_iff_le, decide_eq_true_eq]
  omega

private theorem sum?_eq {carry : UInt32} (small : carry.toNat ≤ 9) (byte : UInt8) :
    sum? (byte.toUInt32 * 10) carry = some (byte.toUInt32 * 10 + carry) := by
  have bound := byte.toNat_lt
  refine if_neg ?_
  simp only [BitVec.uaddOverflow, UInt32.toNat_toBitVec, toNat_product, ge_iff_le,
    decide_eq_true_eq]
  omega

private theorem tenfold?_eq {carry : UInt32} (small : carry.toNat ≤ 9) (bytes : Bytes) :
    tenfold? bytes carry = some (tenfold bytes carry) := by
  induction bytes generalizing carry with
  | nil => rfl
  | cons byte rest induction =>
      rw [tenfold?, product?_eq, Option.bind_eq_bind, Option.bind_some, sum?_eq small,
        Option.bind_eq_bind, Option.bind_some, induction (carried_le small byte)]
      rfl

private theorem digitWord?_eq {digit : Char} (isDigit : digit.isDigit) :
    digitWord? digit = some (digitWord digit) := by
  have above : 48 ≤ digit.toUInt8.toNat := UInt8.le_iff_toNat_le.1 (le_toUInt8 isDigit)
  refine if_neg ?_
  simp only [BitVec.usubOverflow, UInt8.toNat_toBitVec, BitVec.reduceToNat, decide_eq_true_eq]
  omega

/-- No word or byte on the way from the digits to the bytes of their number overflows. -/
private theorem magnitude?_eq {number : SignedDigits}
    (digit : ∀ character ∈ number.digits, character.isDigit) :
    number.magnitude? = some number.magnitude := by
  rw [magnitude?, magnitude]
  generalize number.digits = digits at digit
  -- The bytes so far may be any: the digits alone bound what is carried.
  generalize [] = bytes
  induction digits generalizing bytes with
  | nil => rfl
  | cons head tail induction =>
      have each := List.forall_mem_cons.1 digit
      have appended : appendDigit? bytes head = some (appendDigit bytes head) := by
        rw [appendDigit?, digitWord?_eq each.1, Option.bind_eq_bind, Option.bind_some,
          tenfold?_eq (toNat_digitWord_le each.1), appendDigit]
      rw [List.foldlM_cons, appended, Option.bind_eq_bind, Option.bind_some, induction each.2,
        List.foldl_cons]

/-! ## Words of 64 bits -/

private theorem word128?_decimal (value : Nat) :
    word128? (Numeral.decimal value) =
      if value < 2 ^ 127 then some (BitVec.ofInt 128 value) else none := by
  have room_iff : Integer.FitsInt128 value ↔ value < 2 ^ 127 := by
    rw [Integer.FitsInt128]
    omega
  rw [word128?, Integer.ofLiteral?_decimal, Option.filter_some]
  simp only [decide_eq_true_eq, room_iff]
  split <;> rfl

/-- A number of 127 bits has room in a word of 128 with either sign. -/
private theorem toInt_ofInt128 {value : Int} (room : value.natAbs < 2 ^ 127) :
    (BitVec.ofInt 128 value).toInt = value := by
  rw [BitVec.toInt_ofInt]
  exact Int.bmod_eq_of_le (by omega) (by omega)

/-- A magnitude is not the lowest word, which alone has no negative. -/
private theorem negOverflow_word128? {value : Int} {magnitude : BitVec 128}
    (read : word128? (ofInt value).digits = some magnitude) : magnitude.negOverflow = false := by
  rw [ofInt, word128?_decimal] at read
  split at read
  · rename_i room
    rw [← Option.some.inj read, BitVec.negOverflow, toInt_ofInt128 (by rwa [Int.natAbs_natCast])]
    exact decide_eq_false (by omega)
  · cases read

/-- The integer itself in 64 bits, if it has room in them: an integer that has no room in 128 bits
has none in 64. -/
private theorem toInt64?_ofInt (value : Int) :
    (ofInt value).toInt64? =
      if Integer.FitsInt64 value then some (Int64.ofInt value) else none := by
  rw [toInt64?, ofInt, word128?_decimal]
  by_cases room : value.natAbs < 2 ^ 127
  · rw [if_pos room, Option.bind_some, ← BitVec.ofInt_neg, ← apply_ite (BitVec.ofInt 128),
      signed_natAbs, toInt_ofInt128 room]
  · have wide : ¬Integer.FitsInt64 value := by
      rw [Integer.FitsInt64]
      omega
    rw [if_neg room, if_neg wide, Option.bind_none]

theorem toInt64?_eq_some_iff {value : Int} {word : Int64} :
    (ofInt value).toInt64? = some word ↔ word.toInt = value := by
  have lower := Int64.le_toInt word
  have upper := Int64.toInt_lt word
  rw [toInt64?_ofInt]
  constructor
  · intro fits
    split at fits
    · rename_i room
      rw [← Option.some.inj fits]
      exact Int64.toInt_ofInt_of_le room.1 room.2
    · cases fits
  · rintro rfl
    rw [if_pos ⟨lower, upper⟩, Int64.ofInt_toInt]

theorem toInt64?_eq_none_iff {value : Int} :
    (ofInt value).toInt64? = none ↔ ¬Integer.FitsInt64 value := by
  rw [toInt64?_ofInt]
  split <;> simp_all

/-! ## Exactness -/

/-- A sign and digits are those of an integer, and what is made of them is exactly the integer. -/
structure IsExact (number : SignedDigits) (value : Int) : Prop where
  isDigit : ∀ digit ∈ number.digits, digit.isDigit
  digits : Nat.ofDigitChars 10 number.digits 0 = value.natAbs
  leading : number.digits.head? = some '0' → number.digits = ['0']
  zero : value = 0 → number.digits = ['0']
  negative : number.negative = true ↔ value < 0
  magnitude : number.magnitude.IsBase256 value.natAbs
  empty : number.magnitude = [] ↔ value = 0
  /-- Nothing overflows on the way from the digits to the bytes. -/
  unwrapped : number.magnitude? = some number.magnitude
  /-- The word that a minus sign is put to has a negative. -/
  negation : ∀ magnitude, word128? number.digits = some magnitude → magnitude.negOverflow = false
  word : ∀ word : Int64, number.toInt64? = some word ↔ word.toInt = value
  wide : number.toInt64? = none ↔ ¬Integer.FitsInt64 value

private theorem isExact_ofInt (value : Int) : (ofInt value).IsExact value where
  isDigit _ := isDigit_of_mem_ofInt
  digits := ofDigitChars_ofInt value
  leading := Numeral.eq_of_head?_decimal
  zero := by
    rintro rfl
    rfl
  negative := decide_eq_true_iff
  magnitude := isBase256_ofInt value
  empty := (isBase256_ofInt value).eq_nil_iff.trans Int.natAbs_eq_zero
  unwrapped := magnitude?_eq fun _ => isDigit_of_mem_ofInt
  negation _ := negOverflow_word128?
  word _ := toInt64?_eq_some_iff
  wide := toInt64?_eq_none_iff

/-- A text is accepted exactly where it is at most one sign in front of digits, and every such text
is converted exactly, however long it is. -/
theorem literals_convert_exactly :
    (∀ text : String, (∃ number, ofLiteral? text.toList = some number) ↔
        ∃ literal : Integer.Literal, literal.text = text.toList) ∧
      ∀ literal : Integer.Literal,
        ∃ number, ofLiteral? literal.text = some number ∧ number.IsExact literal.value := by
  refine ⟨fun text => ⟨fun accepted => ?_, fun written => ?_⟩, fun literal => ?_⟩
  · rcases accepted with ⟨number, read⟩
    exact exists_literal_of_ofLiteral? read
  · rcases written with ⟨literal, spelled⟩
    exact ⟨ofInt literal.value, spelled ▸ ofLiteral?_text literal⟩
  · exact ⟨ofInt literal.value, ofLiteral?_text literal, isExact_ofInt literal.value⟩

end SignedDigits

end PickleTrial
