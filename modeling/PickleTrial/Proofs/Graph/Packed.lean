import PickleTrial.Graph.TypedArray
import PickleTrial.Proofs.Number.Narrowing
import PickleTrial.Proofs.Number.TwosComplement

/-! Arrays read back, from the packed bytes of their items or from the items one by one. -/

namespace PickleTrial

namespace Bytes

/-- The numbers in so many words of a width. -/
def words (width : Nat) : (count : Nat) → Bytes → List Nat
  | 0, _ => []
  | count + 1, bytes => toNat (bytes.take width) :: words width count (bytes.drop width)

/-- The numbers in bytes that are words of a width and nothing else. -/
def words? (width : Nat) (bytes : Bytes) : Option (List Nat) :=
  if bytes.length % width = 0 then some (words width (bytes.length / width) bytes) else none

private theorem words_flatMap {α : Type} (width : Nat) (number : α → Nat) (items : List α) :
    words width items.length (items.flatMap fun item => littleEndian width (number item)) =
      items.map fun item => number item % 256 ^ width := by
  induction items with
  | nil => rfl
  | cons item rest induction =>
      rw [List.flatMap_cons, List.length_cons, words,
        List.take_left' (length_littleEndian width _),
        List.drop_left' (length_littleEndian width _),
        induction, toNat_littleEndian, List.map_cons]

private theorem words?_flatMap {α : Type} {width : Nat} (positive : 0 < width) (number : α → Nat)
    (items : List α) :
    words? width (items.flatMap fun item => littleEndian width (number item)) =
      some (items.map fun item => number item % 256 ^ width) := by
  have length : (items.flatMap fun item => littleEndian width (number item)).length =
      items.length * width := by
    simp [List.length_flatMap]
  rw [words?, length, if_pos (Nat.mul_mod_left _ _), Nat.mul_div_cancel _ positive, words_flatMap]

end Bytes

namespace IntegerCode

def ofLetter? (letter : Char) : Option IntegerCode :=
  [b, B, h, H, i, I, l, L, q, Q].find? (·.letter = letter)

theorem ofLetter?_letter (code : IntegerCode) : ofLetter? code.letter = some code := by
  cases code <;> rfl

theorem letter_notMem (code : IntegerCode) : code.letter ∉ ['u', 'f', 'd'] := by
  cases code <;> decide

private theorem width_pos (code : IntegerCode) : 0 < code.width := by
  cases code <;> decide

/-- The machine word of an integer, if the type has one. -/
def word? (code : IntegerCode) (value : Int) : Option (BitVec (8 * code.width)) :=
  let word := BitVec.ofInt (8 * code.width) value
  if code.value word = value then some word else none

theorem word?_value (code : IntegerCode) (word : BitVec (8 * code.width)) :
    code.word? (code.value word) = some word := by
  have same : BitVec.ofInt (8 * code.width) (code.value word) = word := by
    rw [value]
    split
    · exact BitVec.ofInt_toInt
    · rw [BitVec.ofInt_natCast, BitVec.ofNat_toNat, BitVec.setWidth_eq]
  simp only [word?, same, if_true]

end IntegerCode

def Char.ofCode? (code : Nat) : Option Char :=
  if (Char.ofNat code).toNat = code then some (Char.ofNat code) else none

theorem Char.ofCode?_toNat (character : Char) : ofCode? character.toNat = some character := by
  rw [ofCode?, Char.ofNat_toNat, if_pos rfl]

/-- What reads each value as its item reads a list of them as a list. -/
theorem mapM_map_eq_some {α β γ : Type} {write : α → β} {read : β → Option γ} {item : α → γ}
    (back : ∀ value, read (write value) = some (item value)) (values : List α) :
    (values.map write).mapM read = some (values.map item) := by
  induction values with
  | nil => rfl
  | cons value rest induction =>
      rw [List.map_cons, List.mapM_cons, back, induction]
      rfl

namespace TypedArray

/-- The array with a letter and a machine format whose packed bytes these are. -/
def ofPacked? (letter : Char) (format : Int) (payload : Bytes) : Option TypedArray :=
  if letter = 'u' then
    if format = (20 : Nat) then
      (Bytes.words? 4 payload).bind fun words =>
        (words.mapM Char.ofCode?).map fun characters => .text (String.ofList characters)
    else none
  else if letter = 'f' then
    if format = (14 : Nat) then
      (Bytes.words? 4 payload).map fun words =>
        .singles (words.map fun word => ⟨BitVec.ofNat 32 word⟩)
    else none
  else if letter = 'd' then
    if format = (16 : Nat) then
      (Bytes.words? 8 payload).map fun words =>
        .doubles (words.map fun word => ⟨BitVec.ofNat 64 word⟩)
    else none
  else
    (IntegerCode.ofLetter? letter).bind fun code =>
      if format = code.machineFormat then
        (Bytes.words? code.width payload).map fun words =>
          .integers code (words.map fun word => BitVec.ofNat (8 * code.width) word)
      else none

/-- The items as the numbers that their bytes are. -/
def numbers : TypedArray → List Nat
  | text characters => characters.toList.map Char.toNat
  | integers _ words => words.map BitVec.toNat
  | singles items => items.map fun item => item.bits.toNat
  | doubles items => items.map fun item => item.bits.toNat

theorem words?_packed (value : TypedArray) :
    Bytes.words? value.width value.packed = some value.numbers := by
  cases value with
  | text characters =>
      have bound (character : Char) : character.toNat % 256 ^ 4 = character.toNat :=
        Nat.mod_eq_of_lt character.val.toNat_lt
      rw [packed, width, numbers, Bytes.words?_flatMap (by omega)]
      simp only [bound]
  | integers code words =>
      have power : 256 ^ code.width = 2 ^ (8 * code.width) := by rw [Nat.pow_mul]
      rw [packed, width, numbers, Bytes.words?_flatMap code.width_pos, power]
      simp only [BitVec.toNat_mod_cancel]
  | singles items =>
      rw [packed, width, numbers, Bytes.words?_flatMap (by omega)]
      simp only [show 256 ^ 4 = 2 ^ 32 from rfl, BitVec.toNat_mod_cancel]
  | doubles items =>
      rw [packed, width, numbers, Bytes.words?_flatMap (by omega)]
      simp only [show 256 ^ 8 = 2 ^ 64 from rfl, BitVec.toNat_mod_cancel]

theorem length_packed (value : TypedArray) : value.packed.length = value.length * value.width := by
  cases value <;> simp [packed, length, width, List.length_flatMap, String.length_toList]

theorem ofPacked?_packed (value : TypedArray) :
    ofPacked? value.letter value.machineFormat value.packed = some value := by
  have words := words?_packed value
  cases value with
  | text characters =>
      rw [width, numbers] at words
      rw [ofPacked?, letter, machineFormat, if_pos rfl, if_pos rfl, words, Option.bind_some,
        mapM_map_eq_some Char.ofCode?_toNat, List.map_id', Option.map_some, String.ofList_toList]
  | integers code items =>
      have other := code.letter_notMem
      simp only [List.mem_cons, List.not_mem_nil, or_false, not_or] at other
      rw [width, numbers] at words
      rw [ofPacked?, letter, machineFormat, if_neg other.1, if_neg other.2.1, if_neg other.2.2,
        IntegerCode.ofLetter?_letter, Option.bind_some, if_pos rfl, words, Option.map_some,
        List.map_map]
      simp [Function.comp_def]
  | singles items =>
      rw [width, numbers] at words
      rw [ofPacked?, letter, machineFormat, if_neg (by decide), if_pos rfl,
        if_pos rfl, words, Option.map_some, List.map_map]
      simp [Function.comp_def]
  | doubles items =>
      rw [width, numbers] at words
      rw [ofPacked?, letter, machineFormat, if_neg (by decide), if_neg (by decide), if_pos rfl,
        if_pos rfl, words, Option.map_some, List.map_map]
      simp [Function.comp_def]

end TypedArray

end PickleTrial
