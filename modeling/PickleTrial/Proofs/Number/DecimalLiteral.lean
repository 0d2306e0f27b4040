import PickleTrial.Proofs.Number.FloatText

/-! The literals of decimal numbers in their parts. A literal is at most one sign and either a name
or digits with at most one point, behind which an exponent may stand; nothing else is read. -/

namespace PickleTrial.Decimal

/-! ## Literals -/

/-- An integer behind a letter, which may be a capital one. -/
structure Exponent where
  capital : Bool
  numeral : Integer.Literal
deriving DecidableEq

def Exponent.text (exponent : Exponent) : List Char :=
  (if exponent.capital then 'E' else 'e') :: exponent.numeral.text

/-- A literal of a finite number. A fraction is what stands behind a point. -/
structure Literal where
  sign : Sign
  whole : List Char
  fraction : Option (List Char)
  exponent : Option Exponent
  nonempty : whole ++ fraction.getD [] ≠ []
  digit : FloatText.IsDigits (whole ++ fraction.getD [])

namespace Literal

variable (literal : Literal)

def significand : List Char :=
  literal.whole ++ literal.fraction.elim [] ('.' :: ·)

def body : List Char :=
  literal.significand ++ literal.exponent.elim [] Exponent.text

def text : List Char :=
  literal.sign.text ++ literal.body

def coefficient : Nat :=
  Nat.ofDigitChars 10 (literal.whole ++ literal.fraction.getD []) 0

/-- The exponent as it is written. -/
def power : Int :=
  literal.exponent.elim 0 fun exponent => exponent.numeral.value

/-- The exponent of the last digit. -/
def scale : Int :=
  literal.power - (literal.fraction.getD []).length

def number : Decimal :=
  .finite literal.sign.negative literal.coefficient literal.scale

/-- The exponents of a number, the one that is written, that of the last digit, and the one before
that of the first digit, fit 64 bits. -/
structure InRange (literal : Literal) : Prop where
  power : Integer.FitsInt64 literal.power
  scale : Integer.FitsInt64 literal.scale
  reach : Integer.FitsInt64 (literal.scale + (Numeral.decimal literal.coefficient).length)

end Literal

/-- The numbers that have a name. -/
inductive Special
  | infinity
  | nan
  | signalingNaN
deriving DecidableEq

namespace Special

/-- The names in small letters. -/
def names : Special → List String
  | infinity => ["inf", "infinity"]
  | nan => ["nan"]
  | signalingNaN => ["snan"]

def number (negative : Bool) : Special → Decimal
  | infinity => .infinity negative
  | nan => .nan negative false
  | signalingNaN => .nan negative true

/-- A text is a name, whichever of its letters are capital. -/
def IsNamed (special : Special) (text : List Char) : Prop :=
  String.ofList (text.map Char.toLower) ∈ special.names

end Special

/-- The texts that write a number. -/
inductive Writes : List Char → Decimal → Prop
  | finite (literal : Literal) : Writes literal.text literal.number
  | special (sign : Sign) {special : Special} {name : List Char} (named : special.IsNamed name) :
      Writes (sign.text ++ name) (special.number sign.negative)

/-! ## Names -/

/-- Small letters are all that a name is made of. -/
private theorem Special.IsNamed.toLower_mem {special : Special} {text : List Char}
    (named : special.IsNamed text) {character : Char} (member : character ∈ text) :
    character.toLower ∈ ['a', 'f', 'i', 'n', 's', 't', 'y'] := by
  have letters : special.names.all fun name => name.toList.all fun letter =>
      letter ∈ ['a', 'f', 'i', 'n', 's', 't', 'y'] := by
    cases special <;> decide
  have inName := List.all_eq_true.1 letters _ named
  rw [String.toList_ofList] at inName
  exact of_decide_eq_true (List.all_eq_true.1 inName _ (List.mem_map_of_mem member))

theorem Special.IsNamed.free {special : Special} {text : List Char}
    (named : special.IsNamed text) : Sign.Free text where
  minus first := absurd (named.toLower_mem (List.mem_of_mem_head? first)) (by decide)
  plus first := absurd (named.toLower_mem (List.mem_of_mem_head? first)) (by decide)

private theorem toLower_of_isDigit {character : Char} (digit : character.isDigit) :
    character.toLower = character := by
  have bounds : 48 ≤ character.toNat ∧ character.toNat ≤ 57 := Char.isDigit_iff_toNat.1 digit
  refine dif_neg fun capital => ?_
  have least : 65 ≤ character.toNat := UInt32.le_iff_toNat_le.1 capital.1
  omega

/-- What holds a digit is no name. -/
private theorem Special.IsNamed.isDigit_eq_false {special : Special} {text : List Char}
    (named : special.IsNamed text) {character : Char} (member : character ∈ text) :
    character.isDigit = false := by
  rw [Bool.eq_false_iff]
  intro digit
  have letter := named.toLower_mem member
  rw [toLower_of_isDigit digit] at letter
  simp only [List.mem_cons, List.not_mem_nil, or_false] at letter
  rcases letter with rfl | rfl | rfl | rfl | rfl | rfl | rfl <;> exact absurd digit (by decide)

section Names

variable {sign : Sign} {rest : List Char}

private theorem ofLiteral?_append (free : sign = .none → Sign.Free rest) {name : String}
    (lowered : String.ofList (rest.map Char.toLower) = name) :
    ofLiteral? (sign.text ++ rest) =
      if name = "inf" ∨ name = "infinity" then some (.infinity sign.negative)
      else if name = "nan" then some (.nan sign.negative false)
      else if name = "snan" then some (.nan sign.negative true)
      else finiteOf? sign.negative rest := by
  rw [ofLiteral?, splitSign_append free, ← lowered]

theorem ofLiteral?_of_isNamed {special : Special} (named : special.IsNamed rest) :
    ofLiteral? (sign.text ++ rest) = some (special.number sign.negative) := by
  rw [ofLiteral?_append (fun _ => named.free) rfl]
  rw [Special.IsNamed] at named
  generalize String.ofList (rest.map Char.toLower) = name at named
  cases special with
  | infinity =>
      simp only [Special.names, List.mem_cons, List.not_mem_nil, or_false] at named
      exact if_pos named
  | nan =>
      cases List.mem_singleton.1 named
      rfl
  | signalingNaN =>
      cases List.mem_singleton.1 named
      rfl

private theorem ofLiteral?_of_not_isNamed (free : sign = .none → Sign.Free rest)
    (unnamed : ∀ special : Special, ¬special.IsNamed rest) :
    ofLiteral? (sign.text ++ rest) = finiteOf? sign.negative rest := by
  have infinity := unnamed .infinity
  have nan := unnamed .nan
  have signalingNaN := unnamed .signalingNaN
  simp only [Special.IsNamed, Special.names, List.mem_cons, List.not_mem_nil, or_false]
    at infinity nan signalingNaN
  rw [ofLiteral?_append free rfl, if_neg infinity, if_neg nan, if_neg signalingNaN]

end Names

/-! ## Digits, points and exponents -/

private theorem eq_of_splitAtFirst_none {separator : Char → Bool} {text before : List Char}
    (split : splitAtFirst separator text = (before, none)) : text = before := by
  induction text generalizing before with
  | nil =>
      cases split
      rfl
  | cons head tail induction =>
      rw [splitAtFirst] at split
      split at split
      · cases split
      · cases later : splitAtFirst separator tail with
        | mk first behind =>
            rw [later] at split
            cases split
            rw [induction later]

private theorem exists_eq_of_splitAtFirst_some {separator : Char → Bool}
    {text before behind : List Char} (split : splitAtFirst separator text = (before, some behind)) :
    ∃ character, separator character = true ∧ text = before ++ character :: behind := by
  induction text generalizing before with
  | nil => cases split
  | cons head tail induction =>
      rw [splitAtFirst] at split
      split at split
      · cases split
        exact ⟨head, by assumption, rfl⟩
      · cases later : splitAtFirst separator tail with
        | mk first rest =>
            rw [later] at split
            cases split
            rcases induction later with ⟨character, found, rfl⟩
            exact ⟨character, found, rfl⟩

/-- A number in digits is read part by part. -/
private theorem finiteOf?_eq {negative : Bool} {body significand whole : List Char}
    {exponent fraction : Option (List Char)}
    (atExponent : splitAtFirst (fun c => c = 'e' || c = 'E') body = (significand, exponent))
    (atPoint : splitAtFirst (· = '.') significand = (whole, fraction)) :
    finiteOf? negative body =
      (Numeral.ofDecimal? (whole ++ fraction.getD [])).bind fun coefficient =>
        (exponentOf? exponent).map fun power =>
          .finite negative coefficient (power - (fraction.getD []).length) := by
  rw [finiteOf?, atExponent]
  simp only [atPoint, Option.bind_eq_bind]
  cases exponentOf? exponent <;> rfl

private theorem exponentOf?_eq_some_iff {text : Option (List Char)} {value : Int} :
    exponentOf? text = some value ↔
      Integer.FitsInt64 value ∧
        ∃ numeral : Option Integer.Literal,
          numeral.map Integer.Literal.text = text ∧
            numeral.elim 0 Integer.Literal.value = value := by
  cases text with
  | none =>
      rw [exponentOf?, Option.some.injEq]
      constructor
      · rintro rfl
        exact ⟨by decide, none, rfl, rfl⟩
      · rintro ⟨-, numeral, missing, same⟩
        cases Option.map_eq_none_iff.1 missing
        exact same
  | some text =>
      rw [exponentOf?, Option.filter_eq_some_iff, Integer.ofLiteral?_eq_some_iff,
        decide_eq_true_iff]
      constructor
      · rintro ⟨⟨literal, spelled, same⟩, fits⟩
        exact ⟨fits, some literal, congrArg some spelled, same⟩
      · rintro ⟨fits, numeral, spelled, same⟩
        rcases Option.map_eq_some_iff.1 spelled with ⟨literal, rfl, read⟩
        exact ⟨⟨literal, read, same⟩, fits⟩

namespace Literal

variable (literal : Literal)

private theorem isDigits_whole : FloatText.IsDigits literal.whole :=
  fun character member => literal.digit character (List.mem_append_left _ member)

private theorem isDigits_fraction {digits : List Char} (behind : literal.fraction = some digits) :
    FloatText.IsDigits digits := by
  intro character member
  refine literal.digit character (List.mem_append_right _ ?_)
  rwa [behind, Option.getD_some]

private theorem isDigit_or_eq_of_mem_significand {character : Char}
    (member : character ∈ literal.significand) : character.isDigit ∨ character = '.' := by
  rw [significand] at member
  rcases List.mem_append.1 member with inWhole | inFraction
  · exact .inl (literal.isDigits_whole character inWhole)
  · cases behind : literal.fraction with
    | none =>
        rw [behind] at inFraction
        cases inFraction
    | some digits =>
        rw [behind] at inFraction
        rcases List.mem_cons.1 inFraction with point | inDigits
        · exact .inr point
        · exact .inl (literal.isDigits_fraction behind character inDigits)

private theorem significand_ne_nil : literal.significand ≠ [] := by
  have nonempty := literal.nonempty
  rw [significand]
  cases behind : literal.fraction with
  | none => rwa [behind] at nonempty
  | some digits => simp

private theorem free_body : Sign.Free literal.body := by
  have different {character : Char} (noDigit : character.isDigit = false)
      (noPoint : character ≠ '.') : literal.body.head? ≠ some character := by
    intro first
    rw [body, List.head?_append_of_ne_nil _ literal.significand_ne_nil] at first
    rcases literal.isDigit_or_eq_of_mem_significand (List.mem_of_mem_head? first) with
      digit | point
    · rw [noDigit] at digit
      cases digit
    · exact noPoint point
  exact ⟨different (by decide) (by decide), different (by decide) (by decide)⟩

private theorem splitSign_text : splitSign literal.text = (literal.sign.negative, literal.body) :=
  splitSign_append fun _ => literal.free_body

private theorem splitAtFirst_body :
    splitAtFirst (fun c => c = 'e' || c = 'E') literal.body =
      (literal.significand, literal.exponent.map fun exponent => exponent.numeral.text) := by
  have noLetter : ∀ character ∈ literal.significand,
      (decide (character = 'e') || decide (character = 'E')) = false := by
    intro character member
    rcases literal.isDigit_or_eq_of_mem_significand member with digit | rfl
    · rw [Bool.or_eq_false_iff, decide_eq_false_iff_not, decide_eq_false_iff_not]
      constructor <;> rintro rfl <;> exact absurd digit (by decide)
    · decide
  rw [body]
  cases literal.exponent with
  | none =>
      rw [Option.elim_none, List.append_nil]
      exact FloatText.splitAtFirst_of_notMem noLetter
  | some exponent =>
      refine FloatText.splitAtFirst_append noLetter ?_ _
      cases exponent.capital <;> decide

private theorem splitAtFirst_significand :
    splitAtFirst (· = '.') literal.significand = (literal.whole, literal.fraction) := by
  have noPoint := literal.isDigits_whole.notMem '.' (by decide)
  rw [significand]
  cases literal.fraction with
  | none =>
      rw [Option.elim_none, List.append_nil]
      exact FloatText.splitAtFirst_of_notMem noPoint
  | some digits => exact FloatText.splitAtFirst_append noPoint (decide_eq_true rfl) digits

private theorem exponentOf?_numeral (fits : Integer.FitsInt64 literal.power) :
    exponentOf? (literal.exponent.map fun exponent => exponent.numeral.text) =
      some literal.power := by
  refine exponentOf?_eq_some_iff.2 ⟨fits, literal.exponent.map Exponent.numeral, ?_, ?_⟩
  · rw [Option.map_map]
    rfl
  · rw [power]
    cases literal.exponent <;> rfl

private theorem exists_isDigit_mem_body : ∃ character ∈ literal.body, character.isDigit := by
  rcases List.exists_mem_of_ne_nil _ literal.nonempty with ⟨character, member⟩
  refine ⟨character, List.mem_append_left _ ?_, literal.digit character member⟩
  rw [significand]
  rcases List.mem_append.1 member with inWhole | inFraction
  · exact List.mem_append_left _ inWhole
  · cases behind : literal.fraction with
    | none =>
        rw [behind] at inFraction
        cases inFraction
    | some digits =>
        rw [behind] at inFraction
        exact List.mem_append_right _ (List.mem_cons_of_mem _ inFraction)

private theorem not_isNamed_body (special : Special) : ¬special.IsNamed literal.body := by
  intro named
  rcases literal.exists_isDigit_mem_body with ⟨character, member, digit⟩
  rw [named.isDigit_eq_false member] at digit
  cases digit

theorem ofLiteral?_text (fits : Integer.FitsInt64 literal.power) :
    ofLiteral? literal.text = some literal.number := by
  rw [text, ofLiteral?_of_not_isNamed (fun _ => literal.free_body) literal.not_isNamed_body,
    finiteOf?_eq literal.splitAtFirst_body literal.splitAtFirst_significand,
    Numeral.ofDecimal?_of_isDigit literal.nonempty literal.digit, Option.bind_some,
    literal.exponentOf?_numeral fits, Option.map_some, number, coefficient, scale]

/-- A text has one reading. -/
theorem number_eq_of_text_eq {literal other : Literal} (same : literal.text = other.text) :
    literal.number = other.number ∧ literal.power = other.power := by
  have signs := literal.splitSign_text
  rw [same, other.splitSign_text, Prod.mk.injEq] at signs
  have exponents := literal.splitAtFirst_body
  rw [← signs.2, other.splitAtFirst_body, Prod.mk.injEq] at exponents
  have points := literal.splitAtFirst_significand
  rw [← exponents.1, other.splitAtFirst_significand, Prod.mk.injEq] at points
  have power : literal.power = other.power := by
    rw [Literal.power, Literal.power]
    cases first : literal.exponent with
    | none =>
        rw [first] at exponents
        rw [Option.map_eq_none_iff.1 exponents.2]
    | some exponent =>
        rw [first] at exponents
        rcases Option.map_eq_some_iff.1 exponents.2 with ⟨otherExponent, second, spelled⟩
        have value := congrArg Integer.ofLiteral? spelled
        rw [Integer.ofLiteral?_text, Integer.ofLiteral?_text, Option.some.injEq] at value
        rw [second]
        exact value.symm
  refine ⟨?_, power⟩
  rw [number, number, coefficient, coefficient, scale, scale, power, signs.1, points.1, points.2]

/-- A body of digits that is read is that of a literal. -/
private theorem exists_of_finiteOf? {sign : Sign} {rest : List Char} {number : Decimal}
    (read : finiteOf? sign.negative rest = some number) :
    ∃ literal : Literal, literal.text = sign.text ++ rest ∧ literal.number = number := by
  cases atExponent : splitAtFirst (fun c => c = 'e' || c = 'E') rest with
  | mk significand exponent =>
  cases atPoint : splitAtFirst (· = '.') significand with
  | mk whole fraction =>
  rw [finiteOf?_eq atExponent atPoint] at read
  rcases Option.bind_eq_some_iff.1 read with ⟨coefficient, digits, read⟩
  rcases Option.map_eq_some_iff.1 read with ⟨power, written, rfl⟩
  rcases Numeral.ofDecimal?_eq_some_iff.1 digits with ⟨⟨nonempty, digit⟩, rfl⟩
  rcases exponentOf?_eq_some_iff.1 written with ⟨-, numeral, rfl, rfl⟩
  have whole_eq : whole ++ fraction.elim [] ('.' :: ·) = significand := by
    cases fraction with
    | none => exact (List.append_nil _).trans (eq_of_splitAtFirst_none atPoint).symm
    | some digits =>
        rcases exists_eq_of_splitAtFirst_some atPoint with ⟨point, isPoint, rfl⟩
        rw [of_decide_eq_true isPoint]
        rfl
  have rest_eq : ∃ part : Option Exponent, part.map Exponent.numeral = numeral ∧
      significand ++ part.elim [] Exponent.text = rest := by
    cases numeral with
    | none => exact ⟨none, rfl, (List.append_nil _).trans (eq_of_splitAtFirst_none atExponent).symm⟩
    | some numeral =>
        rcases exists_eq_of_splitAtFirst_some atExponent with ⟨letter, isLetter, rfl⟩
        rw [Bool.or_eq_true, decide_eq_true_iff, decide_eq_true_iff] at isLetter
        rcases isLetter with rfl | rfl
        · exact ⟨some ⟨false, numeral⟩, rfl, rfl⟩
        · exact ⟨some ⟨true, numeral⟩, rfl, rfl⟩
  rcases rest_eq with ⟨part, rfl, rfl⟩
  refine ⟨⟨sign, whole, fraction, part, nonempty, digit⟩, ?_, ?_⟩
  · rw [text, body, Literal.significand, whole_eq]
  · rw [Literal.number, scale, Literal.power]
    cases part <;> rfl

end Literal

/-! ## Reading -/

/-- Whatever reads a text in range reads what it writes. -/
theorem ofLiteral?_eq_some_iff {text : List Char} {number : Decimal}
    (fits : ∀ literal : Literal, literal.text = text → Integer.FitsInt64 literal.power) :
    ofLiteral? text = some number ↔ Writes text number := by
  constructor
  · intro read
    rcases Sign.exists_eq_append text with ⟨sign, rest, rfl, free⟩
    by_cases named : ∃ special : Special, special.IsNamed rest
    · rcases named with ⟨special, named⟩
      rw [ofLiteral?_of_isNamed named, Option.some.injEq] at read
      exact read ▸ .special sign named
    · rw [ofLiteral?_of_not_isNamed free (not_exists.1 named)] at read
      rcases Literal.exists_of_finiteOf? read with ⟨literal, spelled, rfl⟩
      exact spelled ▸ .finite literal
  · rintro (literal | ⟨sign, named⟩)
    · exact literal.ofLiteral?_text (fits literal rfl)
    · exact ofLiteral?_of_isNamed named

end PickleTrial.Decimal
