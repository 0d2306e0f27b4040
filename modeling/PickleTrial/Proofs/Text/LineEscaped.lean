import PickleTrial.Proofs.Text.Numeral

/-! Text read back from a line of bytes, in which `\u` and `\U` begin an escape and every other byte
stands for the character of its number. An encoded text holds no line end and reads back. -/

namespace PickleTrial

/-- Where an entry stands in a run that is made of the parts for some items. -/
theorem exists_of_flatMap_eq_append {α β : Type} {change : α → List β} {items : List α}
    {before after : List β} {entry : β} (equal : items.flatMap change = before ++ entry :: after) :
    ∃ earlier item later left right, items = earlier ++ item :: later ∧
      change item = left ++ entry :: right ∧ before = earlier.flatMap change ++ left ∧
        after = right ++ later.flatMap change := by
  induction items generalizing before with
  | nil => exact absurd equal.symm (List.append_ne_nil_of_right_ne_nil _ (List.cons_ne_nil _ _))
  | cons head tail induction =>
      rw [List.flatMap_cons] at equal
      have further {before : List β} (behind : tail.flatMap change = before ++ entry :: after) :
          ∃ earlier item later left right, head :: tail = earlier ++ item :: later ∧
            change item = left ++ entry :: right ∧
              change head ++ before = earlier.flatMap change ++ left ∧
                after = right ++ later.flatMap change := by
        rcases induction behind with ⟨earlier, item, later, left, right, rfl, split, rfl, rest⟩
        exact ⟨head :: earlier, item, later, left, right, rfl, split, by simp, rest⟩
      rcases List.append_eq_append_iff.1 equal with ⟨between, rfl, behind⟩ |
          ⟨between, within, behind⟩
      · exact further behind
      · cases between with
        | nil =>
            have alone : tail.flatMap change = [] ++ entry :: after := behind.symm
            have found := further alone
            rwa [List.append_nil, within, List.append_nil] at found
        | cons first between =>
            cases behind
            exact ⟨[], head, tail, before, between, rfl, within, rfl, rfl⟩

namespace Numeral

def ofHexDigit? (digit : Char) : Option Nat :=
  if '0' ≤ digit ∧ digit ≤ '9' then some (digit.toNat - 48)
  else if 'a' ≤ digit ∧ digit ≤ 'f' then some (digit.toNat - 87)
  else none

def ofHexadecimal? (digits : List Char) : Option Nat :=
  digits.foldlM (fun value digit => (ofHexDigit? digit).map (16 * value + ·)) 0

private theorem ofHexDigit?_hexDigit {value : Nat} (small : value < 16) :
    ofHexDigit? (hexDigit value) = some value := by
  decide +revert

theorem isPrintable_hexDigit {value : Nat} (small : value < 16) :
    IsPrintable (hexDigit value) := by
  decide +revert

theorem ofHexadecimal?_hexadecimal (width value : Nat) :
    ofHexadecimal? (hexadecimal width value) = some (value % 16 ^ width) := by
  induction width generalizing value with
  | zero => simp [hexadecimal, ofHexadecimal?, Nat.mod_one]
  | succ width induction =>
      have earlier := induction (value / 16)
      have digit := ofHexDigit?_hexDigit (Nat.mod_lt value (by omega : 0 < 16))
      rw [ofHexadecimal?] at earlier
      rw [hexadecimal, ofHexadecimal?, List.foldlM_append, earlier, Option.bind_eq_bind,
        Option.bind_some, List.foldlM_cons, digit, Nat.pow_succ', Nat.mod_mul]
      simp [Nat.add_comm]

theorem isPrintable_of_mem_hexadecimal {width value : Nat} {character : Char}
    (member : character ∈ hexadecimal width value) : IsPrintable character := by
  induction width generalizing value with
  | zero => cases member
  | succ width induction =>
      rcases List.mem_append.1 member with earlier | last
      · exact induction earlier
      · rw [List.mem_singleton.1 last]
        exact isPrintable_hexDigit (Nat.mod_lt _ (by omega))

end Numeral

namespace LineEscaped

/-! ## Lines -/

/-- The character with a code point written in hexadecimal, if there is one. -/
def ofCodePoint? (digits : List Char) : Option Char :=
  (Numeral.ofHexadecimal? digits).bind fun code =>
    if code.isValidChar then some (Char.ofNat code) else none

/-- The text of a line. A backslash in front of anything but `u` and `U` stands for itself, and
so does what follows it. -/
def decode? : List Char → Option (List Char)
  | [] => some []
  | '\\' :: 'u' :: a :: b :: c :: d :: rest =>
      (ofCodePoint? [a, b, c, d]).bind fun head => (decode? rest).map (head :: ·)
  | '\\' :: 'U' :: a :: b :: c :: d :: e :: f :: g :: h :: rest =>
      (ofCodePoint? [a, b, c, d, e, f, g, h]).bind fun head => (decode? rest).map (head :: ·)
  | '\\' :: 'u' :: _ => none
  | '\\' :: 'U' :: _ => none
  | '\\' :: other :: rest => (decode? rest).map ('\\' :: other :: ·)
  | head :: rest => (decode? rest).map (head :: ·)

private theorem ofCodePoint?_hexadecimal (width : Nat) {character : Char}
    (fits : character.toNat < 16 ^ width) :
    ofCodePoint? (Numeral.hexadecimal width character.toNat) = some character := by
  rw [ofCodePoint?, Numeral.ofHexadecimal?_hexadecimal, Nat.mod_eq_of_lt fits,
    Option.bind_some, if_pos (show character.toNat.isValidChar from character.valid),
    Char.ofNat_toNat]

private theorem decode?_short {character : Char} (fits : character.toNat < 16 ^ 4)
    (rest : List Char) :
    decode? ('\\' :: 'u' :: (Numeral.hexadecimal 4 character.toNat ++ rest)) =
      (decode? rest).map (character :: ·) := by
  have point := ofCodePoint?_hexadecimal 4 fits
  simp only [Numeral.hexadecimal, List.nil_append, List.cons_append] at point ⊢
  rw [decode?, point, Option.bind_some]

private theorem decode?_long {character : Char} (rest : List Char) :
    decode? ('\\' :: 'U' :: (Numeral.hexadecimal 8 character.toNat ++ rest)) =
      (decode? rest).map (character :: ·) := by
  have fits : character.toNat < 16 ^ 8 := character.val.toNat_lt
  have point := ofCodePoint?_hexadecimal 8 fits
  simp only [Numeral.hexadecimal, List.nil_append, List.cons_append] at point ⊢
  rw [decode?, point, Option.bind_some]

private theorem decode?_other {character : Char} (plain : character ≠ '\\')
    (rest : List Char) : decode? (character :: rest) = (decode? rest).map (character :: ·) := by
  rw [decode?] <;> simp [plain]

theorem latin1_append (first second : Bytes) :
    Quoted.latin1 (first ++ second) = Quoted.latin1 first ++ Quoted.latin1 second :=
  List.map_append

private theorem latin1_singleton {character : Char} (narrow : character.toNat < 0x100) :
    Quoted.latin1 [UInt8.ofNat character.toNat] = [character] := by
  have all : ∀ other ∈ [character], other.toNat < 256 := by simpa using narrow
  exact latin1_ascii all

private theorem isPrintable_of_mem_escape {letter : Char} (printable : Numeral.IsPrintable letter)
    {width value : Nat} {character : Char}
    (member : character ∈ '\\' :: letter :: Numeral.hexadecimal width value) :
    Numeral.IsPrintable character := by
  rcases List.mem_cons.1 member with rfl | member
  · decide
  · rcases List.mem_cons.1 member with rfl | member
    · exact printable
    · exact Numeral.isPrintable_of_mem_hexadecimal member

/-- How a character is written: with four digits or with eight, or as one byte. -/
theorem escape_cases (character : Char) :
    (character.toNat < 16 ^ 4 ∧
        escape character = ascii ('\\' :: 'u' :: Numeral.hexadecimal 4 character.toNat)) ∨
      (character.toNat < 0x100 ∧ mustEscape character = false ∧
        escape character = [UInt8.ofNat character.toNat]) ∨
      escape character = ascii ('\\' :: 'U' :: Numeral.hexadecimal 8 character.toNat) := by
  rw [escape]
  split
  · rename_i escaped
    refine .inl ⟨?_, rfl⟩
    rcases escaped with special | ⟨-, short⟩
    · simp only [mustEscape, Bool.or_eq_true, decide_eq_true_eq] at special
      rcases special with (((rfl | rfl) | rfl) | rfl) | rfl <;> decide
    · exact short
  · rename_i plain
    split
    · rename_i narrow
      have free : mustEscape character = false := by
        rw [Bool.eq_false_iff]
        exact fun special => plain (.inl special)
      exact .inr (.inl ⟨narrow, free, rfl⟩)
    · exact .inr (.inr rfl)

private theorem decode?_escape (character : Char) (rest : Bytes) :
    decode? (Quoted.latin1 (escape character ++ rest)) =
      (decode? (Quoted.latin1 rest)).map (character :: ·) := by
  rw [latin1_append]
  rcases escape_cases character with ⟨fits, equal⟩ | ⟨narrow, free, equal⟩ | equal
  · rw [equal, latin1_ascii_of_isPrintable fun _ => isPrintable_of_mem_escape (by decide)]
    exact decode?_short fits _
  · rw [equal, latin1_singleton narrow]
    apply decode?_other
    rintro rfl
    cases free
  · rw [equal, latin1_ascii_of_isPrintable fun _ => isPrintable_of_mem_escape (by decide)]
    exact decode?_long _

/-- A text reads back from its line. -/
theorem decode?_encode (text : List Char) :
    decode? (Quoted.latin1 (encode text)) = some text := by
  induction text with
  | nil => simp [encode, Quoted.latin1, decode?]
  | cons head tail induction =>
      rw [encode, List.flatMap_cons, decode?_escape]
      rw [encode] at induction
      rw [induction]
      rfl

private theorem newline_notMem_escape (character : Char) : 0x0a ∉ escape character := by
  rcases escape_cases character with ⟨-, equal⟩ | ⟨narrow, free, equal⟩ | equal
  · rw [equal]
    exact newline_notMem_ascii fun _ => isPrintable_of_mem_escape (by decide)
  · rw [equal]
    intro member
    have code := congrArg UInt8.toNat (List.mem_singleton.1 member)
    rw [UInt8.toNat_ofNat_of_lt' narrow] at code
    have newline : character = '\n' := Char.toNat_inj.1 code.symm
    rw [newline] at free
    cases free
  · rw [equal]
    exact newline_notMem_ascii fun _ => isPrintable_of_mem_escape (by decide)

theorem newline_notMem_encode (text : List Char) : 0x0a ∉ encode text := by
  intro member
  rcases List.mem_flatMap.1 member with ⟨character, -, inEscape⟩
  exact newline_notMem_escape character inEscape

end LineEscaped

end PickleTrial
