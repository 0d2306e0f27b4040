import Mathlib.Algebra.Group.Int.Defs
import Mathlib.Algebra.GroupWithZero.Nat
import PickleTrial.Number.Integer

/-! The base-256 digits of a number are read back, and so are integers in two's complement. The form
of an integer is made from a sign and digits by inverting them with a carry, and its bytes are the
fewest that stand for the integer. -/

namespace PickleTrial

namespace Bytes

theorem toNat_littleEndian (width value : Nat) :
    toNat (littleEndian width value) = value % 256 ^ width := by
  induction width generalizing value with
  | zero => simp [littleEndian, toNat, Nat.mod_one]
  | succ width induction =>
      rw [littleEndian, toNat, induction, Nat.pow_succ, Nat.mul_comm (256 ^ width) 256,
        Nat.mod_mul]
      simp

theorem toNat_lt (bytes : Bytes) : bytes.toNat < 256 ^ bytes.length := by
  induction bytes with
  | nil => exact Nat.one_pos
  | cons byte rest induction =>
      have digit := byte.toNat_lt
      rw [toNat, List.length_cons, Nat.pow_succ]
      omega

private theorem toNat_append (low high : Bytes) :
    toNat (low ++ high) = low.toNat + 256 ^ low.length * high.toNat := by
  induction low with
  | nil => simp [toNat]
  | cons byte rest induction =>
      rw [List.cons_append, toNat, induction, toNat, List.length_cons, Nat.pow_succ',
        Nat.mul_add, Nat.mul_assoc, Nat.add_assoc]

private theorem toNat_concat (low : Bytes) (top : UInt8) :
    toNat (low ++ [top]) = low.toNat + 256 ^ low.length * top.toNat :=
  toNat_append low [top]

private theorem toNat_replicate_zero (count : Nat) : toNat (List.replicate count 0) = 0 := by
  induction count with
  | zero => rfl
  | succ count induction => rw [List.replicate_succ, toNat, induction]; rfl

private theorem toNat_append_zeros (digits : Bytes) (count : Nat) :
    toNat (digits ++ List.replicate count 0) = digits.toNat := by
  rw [toNat_append, toNat_replicate_zero, Nat.mul_zero, Nat.add_zero]

/-- Bytes of one length are told apart by their numbers. -/
theorem eq_of_toNat_eq {bytes other : Bytes} (lengths : bytes.length = other.length)
    (same : bytes.toNat = other.toNat) : bytes = other := by
  induction bytes generalizing other with
  | nil => exact (List.eq_nil_of_length_eq_zero lengths.symm).symm
  | cons byte rest induction =>
      cases other with
      | nil => cases lengths
      | cons otherByte otherRest =>
          have digit := byte.toNat_lt
          have otherDigit := otherByte.toNat_lt
          rw [toNat, toNat] at same
          rw [UInt8.toNat_inj.1 (show byte.toNat = otherByte.toNat by omega),
            induction (Nat.succ.inj lengths) (by omega)]

/-! ## Zeros at the high end -/

private theorem exists_significant_append (digits : Bytes) :
    ∃ zeros, digits = digits.significant ++ List.replicate zeros 0 := by
  have zero : ∀ digit ∈ digits.reverse.takeWhile (· = 0), digit = 0 := by
    intro digit member
    have kept := List.all_eq_true.1 List.all_takeWhile digit member
    exact of_decide_eq_true kept
  have split : digits.reverse =
      List.replicate (digits.reverse.takeWhile (· = 0)).length 0 ++
        digits.reverse.dropWhile (· = 0) := by
    rw [← List.eq_replicate_of_mem zero, List.takeWhile_append_dropWhile]
  refine ⟨(digits.reverse.takeWhile (· = 0)).length, ?_⟩
  rw [significant, ← List.reverse_replicate, ← List.reverse_append, ← split, List.reverse_reverse]

theorem toNat_significant (digits : Bytes) : digits.significant.toNat = digits.toNat := by
  rcases digits.exists_significant_append with ⟨zeros, split⟩
  rw [← toNat_append_zeros digits.significant zeros, ← split]

theorem getLast?_significant (digits : Bytes) : digits.significant.getLast? ≠ some 0 := by
  rw [significant, List.getLast?_reverse]
  intro zero
  have kept := List.head?_dropWhile_not (fun digit : UInt8 => decide (digit = 0)) digits.reverse
  rw [zero] at kept
  cases kept

theorem toNat_ne_zero {digits : Bytes} (high : digits.getLast? ≠ some 0) (nonempty : digits ≠ []) :
    digits.toNat ≠ 0 := by
  rcases List.eq_nil_or_concat digits with rfl | ⟨low, top, rfl⟩
  · exact absurd rfl nonempty
  · rw [List.concat_eq_append] at high ⊢
    rw [toNat_concat]
    intro zero
    rcases Nat.mul_eq_zero.1 (Nat.eq_zero_of_add_eq_zero_left zero) with power | none
    · exact Nat.ne_of_gt (Nat.pow_pos (by omega)) power
    · exact high (by rw [List.getLast?_concat, show top = 0 from UInt8.toNat_inj.1 none])

end Bytes

namespace Integer

/-! ## Numbers of binary digits -/

private theorem bitLength_le_iff {value digits : Nat} :
    bitLength value ≤ digits ↔ value < 2 ^ digits := by
  rw [bitLength]
  split
  · rename_i zero
    rw [zero]
    exact iff_of_true (Nat.zero_le digits) (Nat.two_pow_pos digits)
  · rename_i nonzero
    exact Nat.succ_le_iff.trans (Nat.log2_lt nonzero)

private theorem lt_pow_bitLength (value : Nat) : value < 2 ^ bitLength value :=
  bitLength_le_iff.1 (Nat.le_refl _)

private theorem pow_bitLength_le {value : Nat} (nonzero : value ≠ 0) :
    2 ^ bitLength value ≤ 2 * value := by
  cases digits : bitLength value with
  | zero =>
      have zero := bitLength_le_iff.1 (Nat.le_of_eq digits)
      omega
  | succ fewer =>
      have more : ¬bitLength value ≤ fewer := by omega
      rw [bitLength_le_iff] at more
      rw [Nat.pow_succ]
      omega

/-- A byte more than its whole bytes has room for a number twice. -/
private theorem double_lt_pow (value : Nat) : 2 * value < 256 ^ (bitLength value / 8 + 1) := by
  have less := lt_pow_bitLength value
  have bits : 2 * 2 ^ bitLength value ≤ 256 ^ (bitLength value / 8 + 1) := by
    rw [← Nat.pow_succ', show 256 = 2 ^ 8 by rfl, ← Nat.pow_mul]
    exact Nat.pow_le_pow_right (by omega) (by omega)
  omega

private theorem pow_le_double {value : Nat} (nonzero : value ≠ 0) :
    256 ^ (bitLength value / 8) ≤ 2 * value := by
  refine Nat.le_trans ?_ (pow_bitLength_le nonzero)
  rw [show 256 = 2 ^ 8 by rfl, ← Nat.pow_mul]
  exact Nat.pow_le_pow_right (by omega) (by omega)

private theorem bitLength_concat (low : Bytes) {top : UInt8} (nonzero : top ≠ 0) :
    bitLength (Bytes.toNat (low ++ [top])) = 8 * low.length + bitLength top.toNat := by
  have positive : 0 < top.toNat := Nat.pos_of_ne_zero fun zero => nonzero (UInt8.toNat_inj.1 zero)
  have value : Bytes.toNat (low ++ [top]) = low.toNat + 2 ^ (8 * low.length) * top.toNat := by
    rw [Bytes.toNat_concat, Nat.pow_mul]
  have lower : low.toNat < 2 ^ (8 * low.length) := by
    rw [Nat.pow_mul]
    exact low.toNat_lt
  rw [value]
  refine Nat.le_antisymm (bitLength_le_iff.2 ?_) ?_
  · have less := lt_pow_bitLength top.toNat
    calc low.toNat + 2 ^ (8 * low.length) * top.toNat
        < 2 ^ (8 * low.length) * (top.toNat + 1) := by
          rw [Nat.mul_succ]
          omega
      _ ≤ 2 ^ (8 * low.length) * 2 ^ bitLength top.toNat := Nat.mul_le_mul_left _ less
      _ = 2 ^ (8 * low.length + bitLength top.toNat) := (Nat.pow_add ..).symm
  · -- The whole bytes below the highest are counted first, and what is left is that byte's own.
    have whole : 2 ^ (8 * low.length) ≤ low.toNat + 2 ^ (8 * low.length) * top.toNat :=
      Nat.le_add_left_of_le (Nat.le_mul_of_pos_right _ positive)
    have less := lt_pow_bitLength (low.toNat + 2 ^ (8 * low.length) * top.toNat)
    have further := (Nat.pow_lt_pow_iff_right (by omega)).1 (Nat.lt_of_le_of_lt whole less)
    generalize bitLength (low.toNat + 2 ^ (8 * low.length) * top.toNat) = bits at less further
    have rest : 2 ^ (8 * low.length) * top.toNat <
        2 ^ (8 * low.length) * 2 ^ (bits - 8 * low.length) := by
      rw [← Nat.pow_add, Nat.add_sub_cancel' (Nat.le_of_lt further)]
      omega
    have fits := bitLength_le_iff.2 (Nat.lt_of_mul_lt_mul_left rest)
    omega

/-- The binary digits can be counted at the highest byte. -/
private theorem digitsBitLength_eq {digits : Bytes} (high : digits.getLast? ≠ some 0) :
    digitsBitLength digits = bitLength digits.toNat := by
  rcases List.eq_nil_or_concat digits with rfl | ⟨low, top, rfl⟩
  · rfl
  · rw [List.concat_eq_append] at high ⊢
    have nonzero : top ≠ 0 := by
      rintro rfl
      exact high List.getLast?_concat
    rw [bitLength_concat low nonzero, digitsBitLength, List.getLast?_concat, List.length_append,
      List.length_singleton, Nat.add_sub_cancel]

/-! ## Carries -/

private theorem length_complement (digits : Bytes) (carry : Nat) :
    (complement digits carry).length = digits.length := by
  induction digits generalizing carry with
  | nil => rfl
  | cons digit rest induction => rw [complement, List.length_cons, induction, List.length_cons]

/-- With what is carried out of the highest digit, inverting takes from the highest number there is. -/
private theorem exists_toNat_complement (digits : Bytes) {carry : Nat} (single : carry ≤ 1) :
    ∃ lost, (complement digits carry).toNat + 256 ^ digits.length * lost + digits.toNat + 1 =
      256 ^ digits.length + carry := by
  induction digits generalizing carry with
  | nil => exact ⟨carry, by simp [complement, Bytes.toNat]; omega⟩
  | cons digit rest induction =>
      have bound := digit.toNat_lt
      have inverted : (~~~digit).toNat = 255 - digit.toNat := by
        rw [UInt8.toNat_not]
        rfl
      have carried : ((~~~digit).toNat + carry) / 256 ≤ 1 := by omega
      rcases induction carried with ⟨lost, equation⟩
      refine ⟨lost, ?_⟩
      rw [complement, Bytes.toNat, Bytes.toNat, List.length_cons, Nat.pow_succ', Nat.mul_assoc,
        UInt8.toNat_ofNat', inverted]
      rw [inverted] at equation
      generalize 256 ^ rest.length * lost = above at equation ⊢
      omega

private theorem toNat_complement {digits : Bytes} (nonzero : digits.toNat ≠ 0) :
    (complement digits 1).toNat + digits.toNat = 256 ^ digits.length := by
  rcases exists_toNat_complement digits (Nat.le_refl 1) with ⟨lost, equation⟩
  have none : lost = 0 := by
    refine Nat.eq_zero_of_not_pos fun positive => ?_
    have whole := Nat.le_mul_of_pos_right (256 ^ digits.length) positive
    omega
  rw [none] at equation
  omega

/-! ## Two's complement -/

/-- So many bytes have room for an integer and its sign. -/
def FitsIn (value : Int) (width : Nat) : Prop :=
  -(256 ^ width : Nat) ≤ 2 * value ∧ 2 * value < (256 ^ width : Nat)

private theorem FitsIn.mono {value : Int} {width wider : Nat} (fits : FitsIn value width)
    (more : width ≤ wider) : FitsIn value wider := by
  have less := Nat.pow_le_pow_right (show 0 < 256 by omega) more
  rw [FitsIn] at fits ⊢
  omega

private theorem ofTwosComplement_eq (bytes : Bytes) :
    ofTwosComplement bytes =
      if 2 * bytes.toNat < 256 ^ bytes.length then (bytes.toNat : Int)
      else bytes.toNat - (256 ^ bytes.length : Nat) := by
  rw [ofTwosComplement, Nat.one_shiftLeft, Nat.pow_mul]

/-- The integers that so many bytes of two's complement stand for. -/
private theorem fitsIn_ofTwosComplement (bytes : Bytes) :
    FitsIn (ofTwosComplement bytes) bytes.length := by
  have bound := bytes.toNat_lt
  rw [FitsIn, ofTwosComplement_eq]
  split <;> omega

/-- An integer is told by its bytes up to a multiple of their range. -/
private theorem ofTwosComplement_of_fitsIn {bytes : Bytes} {value : Int}
    (fits : FitsIn value bytes.length)
    (congruent : (bytes.toNat : Int) = value ∨
      (bytes.toNat : Int) = value + (256 ^ bytes.length : Nat)) :
    ofTwosComplement bytes = value := by
  have bound := bytes.toNat_lt
  rw [FitsIn] at fits
  rw [ofTwosComplement_eq]
  split <;> omega

private theorem eq_of_ofTwosComplement_eq {bytes other : Bytes}
    (lengths : bytes.length = other.length)
    (same : ofTwosComplement bytes = ofTwosComplement other) : bytes = other := by
  have bound := bytes.toNat_lt
  have otherBound := other.toNat_lt
  rw [ofTwosComplement_eq, ofTwosComplement_eq, lengths] at same
  rw [lengths] at bound
  refine Bytes.eq_of_toNat_eq lengths ?_
  split at same <;> split at same <;> omega

private theorem exists_ofTwosComplement_eq {value : Int} {width : Nat} (fits : FitsIn value width) :
    ∃ bytes : Bytes, bytes.length = width ∧ ofTwosComplement bytes = value := by
  have length := Bytes.length_littleEndian width (value % (256 ^ width : Nat)).toNat
  refine ⟨_, length, ofTwosComplement_of_fitsIn (length.symm ▸ fits) ?_⟩
  rw [length, Bytes.toNat_littleEndian]
  rw [FitsIn] at fits
  generalize 256 ^ width = modulus at fits ⊢
  by_cases negative : value < 0
  · have wrapped : value % modulus = value + modulus := by
      rw [← Int.add_emod_right, Int.emod_eq_of_lt (by omega) (by omega)]
    rw [wrapped, Nat.mod_eq_of_lt (by omega)]
    omega
  · rw [Int.emod_eq_of_lt (by omega) (by omega), Nat.mod_eq_of_lt (by omega)]
    omega

/-! ## The fewest bytes -/

/-- Bytes that stand for an integer, while no fewer bytes do, and no others as few. -/
structure IsShortest (bytes : Bytes) (value : Int) : Prop where
  denotes : ofTwosComplement bytes = value
  shortest : ∀ other, ofTwosComplement other = value → bytes.length ≤ other.length
  only : ∀ other, ofTwosComplement other = value → other.length = bytes.length → other = bytes

namespace IsShortest

private theorem of_not_fitsIn {bytes : Bytes} {value : Int}
    (denotes : ofTwosComplement bytes = value)
    (tight : ∀ width < bytes.length, ¬FitsIn value width) : IsShortest bytes value where
  denotes := denotes
  shortest other same :=
    Nat.le_of_not_lt fun shorter => tight _ shorter (same ▸ fitsIn_ofTwosComplement other)
  only _ same lengths := eq_of_ofTwosComplement_eq lengths (same.trans denotes.symm)

theorem eq {bytes other : Bytes} {value : Int} (shortest : IsShortest bytes value)
    (otherShortest : IsShortest other value) : bytes = other :=
  otherShortest.only bytes shortest.denotes (Nat.le_antisymm
    (shortest.shortest other otherShortest.denotes)
    (otherShortest.shortest bytes shortest.denotes))

private theorem length_le {bytes : Bytes} {value : Int} (shortest : IsShortest bytes value)
    {width : Nat} (fits : FitsIn value width) : bytes.length ≤ width := by
  rcases exists_ofTwosComplement_eq fits with ⟨other, length, same⟩
  exact length ▸ shortest.shortest other same

end IsShortest

/-- The highest byte is dropped only where it repeats a sign. -/
private theorem dropSign_cases (bytes : Bytes) :
    (∃ lower next, (0x80 : UInt8) ≤ next ∧ bytes = lower ++ [next] ++ [0xff] ∧
        dropSign bytes = lower ++ [next]) ∨
      (∀ lower next, (0x80 : UInt8) ≤ next → bytes ≠ lower ++ [next] ++ [0xff]) ∧
        dropSign bytes = bytes := by
  rcases List.eq_nil_or_concat bytes with rfl | ⟨below, top, rfl⟩
  · exact .inr ⟨fun _ _ _ empty => by simp at empty, rfl⟩
  · rcases List.eq_nil_or_concat below with rfl | ⟨lower, next, rfl⟩
    · exact .inr ⟨fun _ _ _ single => by simpa using congrArg List.length single, rfl⟩
    · simp only [List.concat_eq_append]
      have dropped : dropSign (lower ++ [next] ++ [top]) =
          if top = 0xff ∧ 0x80 ≤ next then lower ++ [next] else lower ++ [next] ++ [top] := by
        simp [dropSign]
      by_cases repeats : top = 0xff ∧ 0x80 ≤ next
      · rw [if_pos repeats] at dropped
        exact .inl ⟨lower, next, repeats.2, by rw [repeats.1], dropped⟩
      · rw [if_neg repeats] at dropped
        refine .inr ⟨fun otherLower otherNext sign same => repeats ?_, dropped⟩
        have tops := List.append_inj_right' same rfl
        have nexts := List.append_inj_right' (List.append_inj_left' same rfl) rfl
        cases tops
        cases nexts
        exact ⟨rfl, sign⟩

/-! ## The form of an integer -/

private theorem length_le_width (digits : Bytes) :
    digits.length ≤ digitsBitLength digits / 8 + 1 := by
  rw [digitsBitLength]
  cases highest : digits.getLast? with
  | none =>
      rw [List.getLast?_eq_none_iff.1 highest]
      exact Nat.zero_le _
  | some top =>
      dsimp only
      omega

/-- The bytes of a negative number that has room in fewer bytes repeat its sign. -/
private theorem exists_eq_of_fitsIn {bytes : Bytes} {value whole : Nat} (nonzero : value ≠ 0)
    (length : bytes.length = whole + 1) (inverted : bytes.toNat + value = 256 ^ (whole + 1))
    (fits : FitsIn (-(value : Int)) whole) :
    ∃ lower next, (0x80 : UInt8) ≤ next ∧ bytes = lower ++ [next] ++ [0xff] := by
  have least : 2 * value ≤ 256 ^ whole := by
    have lower := fits.1
    omega
  rcases List.eq_nil_or_concat bytes with rfl | ⟨below, top, rfl⟩
  · cases length
  rcases List.eq_nil_or_concat below with rfl | ⟨lower, next, rfl⟩
  · have size : whole = 0 := by simpa using length.symm
    rw [size] at least
    omega
  rw [List.concat_eq_append, List.concat_eq_append] at *
  have size : whole = lower.length + 1 := by simpa using length.symm
  have bound := Bytes.toNat_lt lower
  have nextBound := next.toNat_lt
  have topBound := top.toNat_lt
  rw [Bytes.toNat_concat, Bytes.toNat_concat, List.length_append, List.length_singleton, size,
    Nat.pow_succ, Nat.pow_succ] at inverted
  rw [size, Nat.pow_succ] at least
  have high : 65408 ≤ next.toNat + 256 * top.toNat := by
    refine Nat.le_of_not_lt fun low => ?_
    have product := Nat.mul_le_mul_left (256 ^ lower.length)
      (show next.toNat + 256 * top.toNat ≤ 65407 by omega)
    rw [Nat.mul_add, ← Nat.mul_assoc] at product
    omega
  have repeats : top = 0xff := UInt8.toNat_inj.1 (show top.toNat = 255 by omega)
  exact ⟨lower, next, UInt8.le_iff_toNat_le.2 (show 128 ≤ next.toNat by omega), by rw [repeats]⟩

/-- A negative number is told by what is left of the range below it. -/
private theorem isShortest_of_inverted {bytes : Bytes} {value whole : Nat}
    (length : bytes.length = whole + 1) (inverted : bytes.toNat + value = 256 ^ (whole + 1))
    (room : 2 * value ≤ 256 ^ (whole + 1)) (tight : ¬FitsIn (-(value : Int)) whole) :
    IsShortest bytes (-(value : Int)) := by
  have positive : 0 < 256 ^ (whole + 1) := Nat.pow_pos (by omega)
  have fits : FitsIn (-(value : Int)) bytes.length := by
    rw [FitsIn, length]
    omega
  have congruent : (bytes.toNat : Int) = -(value : Int) + (256 ^ bytes.length : Nat) := by
    rw [length]
    omega
  refine .of_not_fitsIn (ofTwosComplement_of_fitsIn fits (.inr congruent)) ?_
  exact fun narrower shorter fewer => tight (fewer.mono (by omega))

section Padded

variable {padded : Bytes} (nonzero : padded.toNat ≠ 0)
  (width : padded.length = bitLength padded.toNat / 8 + 1)

include nonzero width

private theorem isShortest_padded : IsShortest padded padded.toNat := by
  have room := double_lt_pow padded.toNat
  have least := pow_le_double nonzero
  rw [← width] at room
  refine .of_not_fitsIn (ofTwosComplement_of_fitsIn ⟨by omega, by omega⟩ (.inl rfl)) ?_
  intro narrower shorter fits
  have wider : FitsIn padded.toNat (bitLength padded.toNat / 8) := fits.mono (by omega)
  rw [FitsIn] at wider
  omega

/-- Where the highest byte repeats the sign, the number is a power of two with its sign in the byte
below; elsewhere all bytes are needed. -/
private theorem isShortest_dropSign :
    IsShortest (dropSign (complement padded 1)) (-(padded.toNat : Int)) := by
  have room := double_lt_pow padded.toNat
  have least := pow_le_double nonzero
  have inverted := toNat_complement nonzero
  have length := (length_complement padded 1).trans width
  rw [width] at inverted
  generalize bitLength padded.toNat / 8 = whole at room least inverted length
  generalize complement padded 1 = bytes at inverted length
  rcases dropSign_cases bytes with ⟨lower, next, sign, rfl, dropped⟩ | ⟨needed, kept⟩
  · have size : whole = lower.length + 1 := by simpa using length.symm
    have short : List.length (lower ++ [next]) = lower.length + 1 := by simp
    have negative : 128 ≤ next.toNat := UInt8.le_iff_toNat_le.1 sign
    have half := Nat.mul_le_mul_left (256 ^ lower.length) negative
    have value := Bytes.toNat_concat lower next
    rw [Bytes.toNat_concat, short, size, Nat.pow_succ, Nat.pow_succ] at inverted
    rw [size, Nat.pow_succ] at least
    rw [dropped]
    generalize lower ++ [next] = bytes at inverted value short
    simp only [UInt8.reduceToNat] at inverted
    refine isShortest_of_inverted short ?_ ?_ ?_
    · rw [Nat.pow_succ]
      omega
    · rw [Nat.pow_succ]
      omega
    · intro fewer
      have positive : 0 < 256 ^ lower.length := Nat.pow_pos (by omega)
      rw [FitsIn] at fewer
      omega
  · rw [kept]
    refine isShortest_of_inverted length inverted (Nat.le_of_lt room) fun fewer => ?_
    rcases exists_eq_of_fitsIn nonzero length inverted fewer with ⟨lower, next, sign, repeats⟩
    exact needed lower next sign repeats

end Padded

/-- The form of a number with a sign is the shortest there is. -/
theorem isShortest_shortestForm (negative : Bool) (digits : Bytes) :
    IsShortest (shortestForm negative digits)
      (if negative then -(digits.toNat : Int) else digits.toNat) := by
  have value := digits.toNat_significant
  have high := digits.getLast?_significant
  rw [shortestForm, ← value]
  generalize digits.significant = digits at high
  dsimp only
  split
  · rename_i empty
    subst empty
    have nothing : (if negative then -(Bytes.toNat [] : Int) else Bytes.toNat []) = 0 := by
      cases negative <;> rfl
    rw [nothing]
    exact .of_not_fitsIn rfl fun _ shorter => absurd shorter (Nat.not_lt_zero _)
  · rename_i nonempty
    have counted := digitsBitLength_eq high
    have enough := length_le_width digits
    rw [counted] at enough ⊢
    have same := digits.toNat_append_zeros (bitLength digits.toNat / 8 + 1 - digits.length)
    have width : (digits ++ List.replicate (bitLength digits.toNat / 8 + 1 - digits.length)
        0).length = bitLength digits.toNat / 8 + 1 := by
      rw [List.length_append, List.length_replicate]
      omega
    have nonzero := Bytes.toNat_ne_zero high nonempty
    generalize digits ++ List.replicate (bitLength digits.toNat / 8 + 1 - digits.length) 0 =
      padded at same width
    rw [← same] at width nonzero ⊢
    cases negative with
    | true => exact isShortest_dropSign nonzero width
    | false => exact isShortest_padded nonzero width

private theorem toNat_magnitude (value : Nat) : (magnitude value).toNat = value := by
  rw [magnitude, Bytes.toNat_littleEndian]
  refine Nat.mod_eq_of_lt (Nat.lt_of_lt_of_le (lt_pow_bitLength value) ?_)
  rw [show 256 = 2 ^ 8 by rfl, ← Nat.pow_mul]
  exact Nat.pow_le_pow_right (by omega) (by omega)

theorem isShortest_twosComplement (value : Int) : IsShortest (twosComplement value) value := by
  have shortest := isShortest_shortestForm (value < 0) (magnitude value.natAbs)
  have same : (if decide (value < 0) then -((magnitude value.natAbs).toNat : Int)
      else (magnitude value.natAbs).toNat) = value := by
    simp only [toNat_magnitude, decide_eq_true_eq]
    split <;> omega
  rwa [same] at shortest

theorem ofTwosComplement_twosComplement (value : Int) :
    ofTwosComplement (twosComplement value) = value :=
  (isShortest_twosComplement value).denotes

/-- No shorter two's complement stands for an integer. -/
theorem length_twosComplement_le {value : Int} {bytes : Bytes}
    (denotes : ofTwosComplement bytes = value) :
    (twosComplement value).length ≤ bytes.length :=
  (isShortest_twosComplement value).shortest bytes denotes

/-- Zeros at the high end of the digits do not matter. -/
private theorem shortestForm_append_zeros (negative : Bool) (digits : Bytes) (zeros : Nat) :
    shortestForm negative (digits ++ List.replicate zeros 0) = shortestForm negative digits := by
  have padded := isShortest_shortestForm negative (digits ++ List.replicate zeros 0)
  rw [Bytes.toNat_append_zeros] at padded
  exact padded.eq (isShortest_shortestForm negative digits)

private theorem twosComplement64_eq (value : Int64) :
    twosComplement64 value =
      shortestForm (value < 0) (Bytes.littleEndian 8 value.toInt.natAbs) := by
  rw [twosComplement64]
  split
  · rename_i zero
    rw [zero]
    decide
  · rcases (Bytes.littleEndian 8 value.toInt.natAbs).exists_significant_append with ⟨zeros, split⟩
    rw [← shortestForm_append_zeros _ _ zeros, ← split]

private theorem isShortest_twosComplement64 (value : Int64) :
    IsShortest (twosComplement64 value) value.toInt := by
  have lower := Int64.le_toInt value
  have upper := Int64.toInt_lt value
  have shortest :=
    isShortest_shortestForm (value < 0) (Bytes.littleEndian 8 value.toInt.natAbs)
  have magnitude : (Bytes.littleEndian 8 value.toInt.natAbs).toNat = value.toInt.natAbs := by
    rw [Bytes.toNat_littleEndian]
    exact Nat.mod_eq_of_lt (by omega)
  have same : (if decide (value < 0) then -(value.toInt.natAbs : Int) else value.toInt.natAbs) =
      value.toInt := by
    simp only [decide_eq_true_eq, Int64.lt_iff_toInt_lt, Int64.toInt_zero]
    split <;> omega
  rwa [magnitude, same, ← twosComplement64_eq] at shortest

theorem twosComplement64_eq_twosComplement (value : Int64) :
    twosComplement64 value = twosComplement value.toInt :=
  (isShortest_twosComplement64 value).eq (isShortest_twosComplement value.toInt)

/-- The forms of a number with a sign and of an integer of 64 bits are the shortest that stand for
the integer. That of a number does not depend on zeros at the high end of its digits, and that of 64
bits is the one from the eight bytes of its magnitude and is no longer than these. -/
theorem shortest_forms :
    (∀ (negative : Bool) (digits : Bytes),
      IsShortest (shortestForm negative digits)
          (if negative then -(digits.toNat : Int) else digits.toNat) ∧
        ∀ zeros,
          shortestForm negative (digits ++ List.replicate zeros 0) =
            shortestForm negative digits) ∧
      ∀ value : Int64,
        IsShortest (twosComplement64 value) value.toInt ∧
          twosComplement64 value =
            shortestForm (value < 0) (Bytes.littleEndian 8 value.toInt.natAbs) ∧
          (twosComplement64 value).length ≤ 8 := by
  refine ⟨fun negative digits => ⟨isShortest_shortestForm negative digits,
    shortestForm_append_zeros negative digits⟩, fun value => ?_⟩
  have shortest := isShortest_twosComplement64 value
  have lower := Int64.le_toInt value
  have upper := Int64.toInt_lt value
  have fits : FitsIn value.toInt 8 := ⟨by omega, by omega⟩
  exact ⟨shortest, twosComplement64_eq value, shortest.length_le fits⟩

/-- Bytes `80` alone stand for the lowest integer that has room in them. -/
example : shortestForm true [0x80, 0x00] = [0x80] := by decide

end Integer

end PickleTrial
