import PickleTrial.Proofs.Decoding.Opcodes
import PickleTrial.Proofs.Number.CanonicalDecimal

/-! Floating-point numbers as text. The text of a finite number denotes the shortest decimal that
reads back as the number, with the sign of the number, in one of two notations by the power of ten
of its first digit. No two texts of numbers are the same, so a line of the oldest protocol gives
every number back. -/

namespace PickleTrial.FloatText

/-! ## Significant digits -/

private theorem decimal_ten_pow (zeros : Nat) :
    Numeral.decimal (10 ^ zeros) = '1' :: List.replicate zeros '0' := by
  induction zeros with
  | zero => rfl
  | succ zeros induction =>
      rw [Numeral.decimal] at induction
      have positive : 0 < 10 ^ zeros := Nat.pow_pos (by omega)
      have several : ¬10 ^ (zeros + 1) < 10 := by
        rw [Nat.pow_succ]
        omega
      rw [Numeral.decimal, Nat.toDigits_eq_if (by omega), if_neg several, Nat.pow_succ,
        Nat.mul_div_cancel _ (by omega), Nat.mul_mod_left, induction, List.replicate_succ']
      rfl

private theorem head?_significant {decimal : Shortest.Decimal}
    (zero : (significant decimal).1.head? = some '0') : decimal.coefficient = 0 := by
  rcases exists_eq_significant_append decimal with ⟨zeros, split⟩
  apply Numeral.eq_zero_of_head?_decimal
  rw [split, List.head?_append, zero]
  rfl

private theorem getLast?_significant (decimal : Shortest.Decimal) :
    (significant decimal).1.getLast? ≠ some '0' := by
  intro zero
  rw [significant, List.getLast?_reverse] at zero
  have kept := List.head?_dropWhile_not (fun character => decide (character = '0'))
    (Numeral.decimal decimal.coefficient).reverse
  rw [zero] at kept
  cases kept

/-- Of a power of ten one digit is left. -/
private theorem length_significant_le {decimal : Shortest.Decimal} {digits : Nat}
    (positive : 0 < digits)
    (few : decimal.coefficient ≤ 10 ^ digits) : (significant decimal).1.length ≤ digits := by
  rcases exists_eq_significant_append decimal with ⟨zeros, split⟩
  rcases Nat.lt_or_eq_of_le few with fewer | power
  · have length : (Numeral.decimal decimal.coefficient).length ≤ digits :=
      (Nat.length_toDigits_le_iff (by omega) positive).2 fewer
    rw [split, List.length_append] at length
    omega
  · rw [power, decimal_ten_pow] at split
    have last := getLast?_significant decimal
    generalize (significant decimal).1 = kept at split last
    rcases kept with _ | ⟨first, rest⟩
    · exact Nat.zero_le _
    · cases rest using List.reverseRecOn with
      | nil => exact positive
      | append_singleton rest final =>
          have behind := (List.cons.inj split).2
          have member : final ∈ List.replicate digits '0' := by
            rw [behind]
            simp
          rw [List.eq_of_mem_replicate member, ← List.cons_append, List.getLast?_concat] at last
          exact absurd rfl last

/-- The digits of a finite number, and the power of ten of the first. -/
def numeral (number : Binary64) : List Char × Int :=
  if number.significand = 0 then (['0'], 0)
  else significant (Shortest.decimal number.significand number.exponent)

private theorem magnitude_eq (number : Binary64) :
    magnitude number = layout (numeral number).1 (numeral number).2 := by
  rw [magnitude, numeral]
  split <;> rfl

/-- The fewest digits that read back as the magnitude of a finite number, and the power of ten of
the first. -/
structure Shows (number : Binary64) (digits : List Char) (power : Int) : Prop where
  isDigits : IsDigits digits
  nonempty : digits ≠ []
  few : digits.length ≤ 17
  zero : number.significand = 0 → digits = ['0'] ∧ power = 0
  leading : digits.head? = some '0' → number.significand = 0
  trailing : digits.getLast? = some '0' → number.significand = 0
  readsBack : number.significand ≠ 0 →
    Shortest.Decimal.readsBack ⟨Nat.ofDigitChars 10 digits 0, power + 1 - digits.length⟩
      number.significand number.exponent
  fewest : number.significand ≠ 0 → ∀ other : Shortest.Decimal,
    other.readsBack number.significand number.exponent →
      digits.length ≤ (Numeral.decimal other.coefficient).length

private theorem shows_numeral {number : Binary64} (finite : number.exponentField ≠ 2047) :
    Shows number (numeral number).1 (numeral number).2 := by
  rw [numeral]
  split
  · rename_i zero
    exact {
      isDigits := isDigits_replicate 1
      nonempty := List.cons_ne_nil _ _
      few := by decide
      zero := fun _ => ⟨rfl, rfl⟩
      leading := fun _ => zero
      trailing := fun _ => zero
      readsBack := fun nonzero => absurd zero nonzero
      fewest := fun nonzero => absurd zero nonzero }
  · rename_i nonzero
    have canonical := canonical_of_finite finite nonzero
    have positive := canonical.positive
    have reads := Shortest.decimal_readsBack canonical
    have within := (Shortest.Decimal.readsBack_iff positive).1 reads
    rcases Shortest.exists_fewest_digits canonical with ⟨digits, some, few, short, fewest⟩
    generalize Shortest.decimal number.significand number.exponent = decimal at *
    have coefficient := within.coefficient_ne_zero positive
    have length := length_significant_le some short
    exact {
      isDigits := significant_isDigits decimal
      nonempty := significant_ne_nil coefficient
      few := length.trans few
      zero := fun zero => absurd zero nonzero
      leading := fun zero => absurd (head?_significant zero) coefficient
      trailing := fun zero => absurd zero (getLast?_significant decimal)
      readsBack := fun _ => by
        rw [Shortest.Decimal.readsBack_iff positive, significant_value]
        exact within
      fewest := fun _ other reads => by
        have large := fewest other reads
        have bound := Shortest.lt_pow_length_toDigits other.coefficient
        have exponents := (Nat.pow_lt_pow_iff_right (by omega)).1 (large.trans_lt bound)
        rw [Numeral.decimal]
        omega }

/-! ## Notations -/

/-- Digits on both sides of a point. -/
def IsFixed (body : List Char) : Prop :=
  ∃ whole fraction, IsDigits whole ∧ IsDigits fraction ∧ whole ≠ [] ∧ fraction ≠ [] ∧
    body = whole ++ '.' :: fraction

/-- A digit, others behind a point where there are any, and a power of ten with its sign and at
least two digits. -/
def IsScientific (body : List Char) : Prop :=
  ∃ first rest sign power, first.isDigit ∧ IsDigits rest ∧ (sign = '+' ∨ sign = '-') ∧
    IsDigits power ∧ 2 ≤ power.length ∧
    body = first :: ((if rest = [] then [] else '.' :: rest) ++ 'e' :: sign :: power)

private theorem IsFixed.not_isScientific {body : List Char} (fixed : IsFixed body) :
    ¬IsScientific body := by
  rcases fixed with ⟨whole, fraction, left, right, -, -, rfl⟩
  rintro ⟨first, rest, sign, power, -, -, -, -, -, equal⟩
  have member : 'e' ∈ whole ++ '.' :: fraction := by
    rw [equal]
    simp
  have noPower := left.notMem_point right 'e' member
  simp at noPower

private theorem positional_isFixed {digits : List Char} (all : IsDigits digits)
    (nonempty : digits ≠ []) (power : Int) : IsFixed (positional digits power) := by
  rw [positional]
  split
  · refine ⟨['0'], _, isDigits_replicate 1, (isDigits_replicate _).append all, List.cons_ne_nil _ _,
      ?_, rfl⟩
    exact List.append_ne_nil_of_right_ne_nil _ nonempty
  · simp only
    split
    · refine ⟨_, ['0'], all.append (isDigits_replicate _), isDigits_replicate 1, ?_,
        List.cons_ne_nil _ _, rfl⟩
      exact List.append_ne_nil_of_left_ne_nil nonempty _
    · rename_i long
      refine ⟨_, _, fun character member => all character (List.mem_of_mem_take member),
        fun character member => all character (List.mem_of_mem_drop member), ?_, ?_, rfl⟩
      · rw [ne_eq, List.take_eq_nil_iff]
        simp [nonempty]
      · rw [ne_eq, List.drop_eq_nil_iff]
        exact long

private theorem powerText_eq (power : Int) :
    ∃ sign digits, (sign = '+' ∨ sign = '-') ∧ IsDigits digits ∧ 2 ≤ digits.length ∧
      powerText power = 'e' :: sign :: digits := by
  refine ⟨_, _, ?_, ?_, ?_, rfl⟩
  · split
    · exact .inr rfl
    · exact .inl rfl
  · split
    · exact (isDigits_replicate 1).append (isDigits_decimal _)
    · exact isDigits_decimal _
  · have some := List.length_pos_iff.2 (Numeral.decimal_ne_nil power.natAbs)
    split
    · rw [List.length_cons]
      omega
    · omega

private theorem scientific_isScientific {digits : List Char} (all : IsDigits digits)
    (nonempty : digits ≠ []) (power : Int) : IsScientific (scientific digits power) := by
  rcases powerText_eq power with ⟨sign, exponent, isSign, areDigits, padded, written⟩
  rcases digits with _ | ⟨first, rest⟩
  · exact absurd rfl nonempty
  · refine ⟨first, rest, sign, exponent, all first List.mem_cons_self,
      fun character member => all character (List.mem_cons_of_mem _ member), isSign, areDigits,
      padded, ?_⟩
    rw [← written]
    cases rest <;> rfl

private theorem layout_isFixed_iff {digits : List Char} (all : IsDigits digits)
    (nonempty : digits ≠ [])
    (power : Int) : IsFixed (layout digits power) ↔ -4 ≤ power ∧ power < 16 := by
  rw [layout]
  split
  · exact iff_of_true (positional_isFixed all nonempty power) (by assumption)
  · refine iff_of_false (fun fixed => ?_) (by assumption)
    exact fixed.not_isScientific (scientific_isScientific all nonempty power)

private theorem layout_isScientific_iff {digits : List Char} (all : IsDigits digits)
    (nonempty : digits ≠ []) (power : Int) :
    IsScientific (layout digits power) ↔ ¬(-4 ≤ power ∧ power < 16) := by
  rw [layout]
  split
  · refine iff_of_false (positional_isFixed all nonempty power).not_isScientific ?_
    rw [not_not]
    assumption
  · exact iff_of_true (scientific_isScientific all nonempty power) (by assumption)

/-! ## Texts -/

/-- What the text of a finite number denotes, without its sign. -/
structure Denotes (number : Binary64) (digits : List Char) (power : Int) (body : List Char) :
    Prop where
  shows : Shows number digits power
  /-- A zero keeps its sign. -/
  text : text number = if number.negative then '-' :: body else body
  value : StandsFor body (Nat.ofDigitChars 10 digits 0 * 10 ^ (power + 1 - digits.length))
  fixed : IsFixed body ↔ -4 ≤ power ∧ power < 16
  scientific : IsScientific body ↔ ¬(-4 ≤ power ∧ power < 16)

private theorem denotes_numeral {number : Binary64} (finite : number.exponentField ≠ 2047) :
    Denotes number (numeral number).1 (numeral number).2 (magnitude number) := by
  have shows := shows_numeral finite
  have noNaN : number.isNaN = false := decide_eq_false fun parts => finite parts.1
  have noInfinity : number.isInfinite = false := decide_eq_false fun parts => finite parts.1
  have layout := magnitude_eq number
  refine ⟨shows, ?_, ?_, ?_, ?_⟩
  · rw [FloatText.text, noNaN, noInfinity]
    rfl
  · rw [layout]
    exact layout_standsFor shows.isDigits shows.nonempty _
  · rw [layout]
    exact layout_isFixed_iff shows.isDigits shows.nonempty _
  · rw [layout]
    exact layout_isScientific_iff shows.isDigits shows.nonempty _

/-- What the text of a number is good for. -/
structure IsFaithful (number : Binary64) : Prop where
  finite : number.exponentField ≠ 2047 → ∃ digits power body, Denotes number digits power body
  read : number.isNaN = false → read? (text number) = some number
  distinct : number.isNaN = false → ∀ other : Binary64, text other = text number → other = number
  /-- The line of a number at protocol 0 is read to its end and gives the number, bit for bit. -/
  line : number.isNaN = false → ∀ protocol : Protocol, protocol.version = 0 →
    ∃ line, protocol.floatOpcode number = .float line ∧
      (∀ rest : Bytes, Opcode.read? ((Opcode.float line).bytes ++ rest) =
        some (.float line, rest)) ∧
      Machine.scalar? (.float line) = some (.float number)

theorem isFaithful_text (number : Binary64) : IsFaithful number := by
  have read (noNaN : number.isNaN = false) : read? (text number) = some number := by
    rw [read?_text, noNaN]
    rfl
  refine ⟨fun finite => ⟨_, _, _, denotes_numeral finite⟩, read, ?_, ?_⟩
  · intro noNaN other same
    have found := (read?_text other).symm.trans ((congrArg read? same).trans (read noNaN))
    rw [Option.some.injEq] at found
    split at found
    · rw [← found] at noNaN
      exact absurd noNaN (by decide)
    · exact found
  · intro noNaN protocol oldest
    refine ⟨LineEscaped.ascii (text number), if_pos oldest, ?_, ?_⟩
    · have noEnd : 0x0a ∉ LineEscaped.ascii (text number) :=
        LineEscaped.newline_notMem_ascii fun _ => isPrintable_of_mem_text
      exact Opcode.read?_bytes ⟨trivial, by simp [Opcode.lines, noEnd]⟩
    · have scalar := Machine.scalar?_floatOpcode protocol number
      rw [Protocol.floatOpcode, if_pos oldest, Binary64.through, if_neg (by simp [noNaN])] at scalar
      exact scalar

/-- One ten-thousandth, and a tenth of it. -/
example : text ⟨0x3f1a36e2eb1c432d⟩ = "0.0001".toList ∧
    text ⟨0x3ee4f8b588e368f1⟩ = "1e-05".toList := by
  decide +kernel

end PickleTrial.FloatText
