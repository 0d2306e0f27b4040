import PickleTrial.Proofs.Decoding.Values

/-! Texts in streams that were made for lines. In a line every backslash begins an escape of one
character, and the bytes that a reader of lines may stop at are not there, so a text comes back
whatever its characters are next to. A byte string below protocol 3 is written as such a text, of
characters below 256, and comes back with it. -/

namespace PickleTrial

namespace LineEscaped

/-! ## Reading escapes -/

/-- The number that a hexadecimal digit stands for, in upper case or lower case. -/
def hexValue? (byte : UInt8) : Option Nat :=
  let code := byte.toNat
  if 48 ≤ code ∧ code ≤ 57 then some (code - 48)
  else if 65 ≤ code ∧ code ≤ 70 then some (code - 55)
  else if 97 ≤ code ∧ code ≤ 102 then some (code - 87)
  else none

def hexNumber? (digits : Bytes) : Option Nat :=
  digits.foldlM (fun value digit => (hexValue? digit).map (16 * value + ·)) 0

/-- How many digits an escape has, by the letter behind its backslash. -/
def escapeWidth? (letter : UInt8) : Option Nat :=
  if letter = 0x75 then some 4
  else if letter = 0x55 then some 8
  else none

def isCodePoint (code : Nat) : Bool :=
  code ≤ 0x10ffff

/-- The code points of a line. A backslash in front of `u` or `U` begins an escape, which has all
its digits or else there is no text. In front of anything else it stands for itself, and so does
what follows it. Any other byte stands for the code point of its number. -/
def codePoints? : Bytes → Option (List Nat)
  | [] => some []
  | [byte] => some [byte.toNat]
  | byte :: next :: rest =>
      if byte = 0x5c then
        match escapeWidth? next with
        | none => (codePoints? rest).map (byte.toNat :: next.toNat :: ·)
        | some width =>
            if rest.length < width then none
            else
              ((hexNumber? (rest.take width)).filter isCodePoint).bind fun code =>
                (codePoints? (rest.drop width)).map (code :: ·)
      else (codePoints? (next :: rest)).map (byte.toNat :: ·)
termination_by line => line.length
decreasing_by all_goals (simp only [List.length_cons, List.length_drop]; omega)

/-- Not every backslash begins an escape, and an escape may be too short. -/
example : codePoints? (ascii "\\\\u0041".toList) = some ("\\\\u0041".toList.map Char.toNat) ∧
    codePoints? (ascii "\\u004A\\U0001f40d".toList) = some [0x4a, 0x1f40d] ∧
    codePoints? (ascii "\\u004".toList) = none := by
  refine ⟨?_, ?_, ?_⟩ <;> cbv

private theorem hexValue?_hexDigit {value : Nat} (small : value < 16) :
    hexValue? (UInt8.ofNat (Numeral.hexDigit value).toNat) = some value := by
  decide +revert

private theorem hexNumber?_hexadecimal (width value : Nat) :
    hexNumber? (ascii (Numeral.hexadecimal width value)) = some (value % 16 ^ width) := by
  induction width generalizing value with
  | zero => simp [Numeral.hexadecimal, ascii, hexNumber?, Nat.mod_one]
  | succ width induction =>
      have earlier := induction (value / 16)
      have digit := hexValue?_hexDigit (Nat.mod_lt value (by omega : 0 < 16))
      rw [hexNumber?, ascii] at earlier
      rw [Numeral.hexadecimal, ascii, List.map_append, hexNumber?, List.foldlM_append, earlier,
        Option.bind_eq_bind, Option.bind_some, List.map_singleton, List.foldlM_cons, digit,
        Nat.pow_succ', Nat.mod_mul]
      simp [Nat.add_comm]

/-! ## Writing escapes -/

/-- An escape has as many digits as its letter asks for. What is no escape is one byte. -/
private theorem escape_eq (character : Char) :
    (∃ letter width, escapeWidth? letter = some width ∧ character.toNat < 16 ^ width ∧
      escape character = 0x5c :: letter :: ascii (Numeral.hexadecimal width character.toNat)) ∨
    (character.toNat < 0x100 ∧ mustEscape character = false ∧
      escape character = [UInt8.ofNat character.toNat]) := by
  rcases escape_cases character with ⟨fits, equal⟩ | plain | equal
  · exact .inl ⟨0x75, 4, rfl, fits, equal⟩
  · exact .inr plain
  · have fits : character.toNat < 16 ^ 8 := character.val.toNat_lt
    exact .inl ⟨0x55, 8, rfl, fits, equal⟩

/-- What a line goes on with behind a backslash that begins an escape: a letter and all its digits,
which tell a code point, and then a rest. -/
inductive BeginsEscape : Bytes → Nat → Bytes → Prop
  | intro {letter : UInt8} {digits : Bytes} {code : Nat}
      (complete : escapeWidth? letter = some digits.length) (value : hexNumber? digits = some code)
      (valid : isCodePoint code) (rest : Bytes) :
      BeginsEscape (letter :: (digits ++ rest)) code rest

private theorem isCodePoint_toNat (character : Char) : isCodePoint character.toNat := by
  apply decide_eq_true
  rcases character.valid with low | ⟨-, high⟩
  · exact Nat.le_of_lt_succ (Nat.lt_trans low (by decide))
  · exact Nat.le_of_lt_succ high

private theorem beginsEscape_hexadecimal {letter : UInt8} {width : Nat} {character : Char}
    (escapes : escapeWidth? letter = some width) (fits : character.toNat < 16 ^ width)
    (rest : Bytes) :
    BeginsEscape (letter :: (ascii (Numeral.hexadecimal width character.toNat) ++ rest))
      character.toNat rest := by
  apply BeginsEscape.intro
  · rw [ascii, List.length_map, Numeral.length_hexadecimal]
    exact escapes
  · rw [hexNumber?_hexadecimal, Nat.mod_eq_of_lt fits]
  · exact isCodePoint_toNat character

private theorem codePoints?_of_beginsEscape {line rest : Bytes} {code : Nat}
    (begins : BeginsEscape line code rest) :
    codePoints? (0x5c :: line) = (codePoints? rest).map (code :: ·) := by
  cases begins with
  | intro complete value valid rest =>
      rw [codePoints?, if_pos rfl, complete]
      simp only [List.length_append, Nat.not_lt.2 (Nat.le_add_right _ _), if_false]
      rw [List.take_left, List.drop_left, value, Option.filter_some, if_pos valid,
        Option.bind_some]

private theorem codePoints?_cons_of_ne {byte : UInt8} (plain : byte ≠ 0x5c) (rest : Bytes) :
    codePoints? (byte :: rest) = (codePoints? rest).map (byte.toNat :: ·) := by
  cases rest with
  | nil =>
      rw [codePoints?, codePoints?]
      rfl
  | cons next rest => rw [codePoints?, if_neg plain]

/-! ## Bytes of lines -/

/-- The bytes that a reader of lines may take for an end. -/
def stops : Bytes :=
  [0x00, 0x0a, 0x0d, 0x1a]

private theorem ofNat_notMem_of_mustEscape_eq_false {character : Char}
    (narrow : character.toNat < 0x100)
    (free : mustEscape character = false) : UInt8.ofNat character.toNat ∉ 0x5c :: stops := by
  intro member
  have special : (0x5c :: stops).all fun byte => mustEscape (Char.ofNat byte.toNat) := by decide
  have escaped := List.all_eq_true.1 special _ member
  rw [UInt8.toNat_ofNat_of_lt' narrow, Char.ofNat_toNat, free] at escaped
  cases escaped

private theorem isSome_hexValue?_of_mem {width value : Nat} {byte : UInt8}
    (member : byte ∈ ascii (Numeral.hexadecimal width value)) : (hexValue? byte).isSome := by
  induction width generalizing value with
  | zero => cases member
  | succ width induction =>
      rw [Numeral.hexadecimal, ascii, List.map_append] at member
      rcases List.mem_append.1 member with earlier | last
      · exact induction earlier
      · rw [List.map_singleton, List.mem_singleton] at last
        rw [last, hexValue?_hexDigit (Nat.mod_lt value (by omega))]
        rfl

/-- Behind its backslash an escape has neither another one nor an end. -/
private theorem notMem_of_mem_digits {letter byte : UInt8} {width value : Nat}
    (escapes : escapeWidth? letter = some width)
    (member : byte ∈ letter :: ascii (Numeral.hexadecimal width value)) :
    byte ∉ 0x5c :: stops := by
  intro special
  have neither : (0x5c :: stops).all fun byte =>
      (escapeWidth? byte).isNone && (hexValue? byte).isNone := by
    decide
  have parts := List.all_eq_true.1 neither byte special
  rw [Bool.and_eq_true, Option.isNone_iff_eq_none, Option.isNone_iff_eq_none] at parts
  rcases List.mem_cons.1 member with rfl | digit
  · rw [parts.1] at escapes
    cases escapes
  · have found := isSome_hexValue?_of_mem digit
    rw [parts.2] at found
    cases found

private theorem notMem_stops_of_mem_escape {character : Char} {byte : UInt8}
    (member : byte ∈ escape character) : byte ∉ stops := by
  rcases escape_eq character with ⟨letter, width, escapes, -, equal⟩ | ⟨narrow, free, equal⟩
  · rw [equal] at member
    rcases List.mem_cons.1 member with rfl | member
    · decide
    · exact List.not_mem_of_not_mem_cons (notMem_of_mem_digits escapes member)
  · rw [equal] at member
    rw [List.mem_singleton.1 member]
    exact List.not_mem_of_not_mem_cons (ofNat_notMem_of_mustEscape_eq_false narrow free)

/-- What is written for a character has no backslash but the one with which it begins an escape. -/
private theorem beginsEscape_of_escape {character : Char} {before after : Bytes}
    (equal : escape character = before ++ 0x5c :: after) (rest : Bytes) :
    before = [] ∧ BeginsEscape (after ++ rest) character.toNat rest := by
  rcases escape_eq character with ⟨letter, width, escapes, fits, shape⟩ | ⟨narrow, free, shape⟩
  · rw [shape] at equal
    cases before with
    | nil =>
        cases equal
        exact ⟨rfl, beginsEscape_hexadecimal escapes fits rest⟩
    | cons first before =>
        have member : (0x5c : UInt8) ∈
            letter :: ascii (Numeral.hexadecimal width character.toNat) := by
          rw [(List.cons.inj equal).2]
          exact List.mem_append_right _ List.mem_cons_self
        exact absurd List.mem_cons_self (notMem_of_mem_digits escapes member)
  · have member : (0x5c : UInt8) ∈ escape character := by
      rw [equal]
      exact List.mem_append_right _ List.mem_cons_self
    rw [shape, List.mem_singleton] at member
    have plain := ofNat_notMem_of_mustEscape_eq_false narrow free
    rw [← member] at plain
    exact absurd List.mem_cons_self plain

/-! ## Lines -/

private theorem codePoints?_escape (character : Char) (rest : Bytes) :
    codePoints? (escape character ++ rest) =
      (codePoints? rest).map (character.toNat :: ·) := by
  rcases escape_eq character with ⟨letter, width, escapes, fits, equal⟩ | ⟨narrow, free, equal⟩
  · rw [equal]
    exact codePoints?_of_beginsEscape (beginsEscape_hexadecimal escapes fits rest)
  · have plain := ofNat_notMem_of_mustEscape_eq_false narrow free
    rw [equal, List.singleton_append, codePoints?_cons_of_ne (List.ne_of_not_mem_cons plain),
      UInt8.toNat_ofNat_of_lt' narrow]

private theorem codePoints?_encode (text : List Char) :
    codePoints? (encode text) = some (text.map Char.toNat) := by
  induction text with
  | nil =>
      rw [encode, List.flatMap_nil, codePoints?]
      rfl
  | cons head tail induction =>
      rw [encode] at induction
      rw [encode, List.flatMap_cons, codePoints?_escape, induction]
      rfl

private theorem notMem_stops_of_mem_encode {text : List Char} {byte : UInt8}
    (member : byte ∈ encode text) : byte ∉ stops := by
  rcases List.mem_flatMap.1 member with ⟨character, -, inEscape⟩
  exact notMem_stops_of_mem_escape inEscape

/-- Every backslash in a line begins the escape of one character of the text. -/
private theorem exists_beginsEscape_of_encode {text : List Char} {before after : Bytes}
    (equal : encode text = before ++ 0x5c :: after) :
    ∃ earlier character later, text = earlier ++ character :: later ∧ before = encode earlier ∧
      BeginsEscape after character.toNat (encode later) := by
  rcases exists_of_flatMap_eq_append equal with
    ⟨earlier, character, later, left, right, rfl, split, rfl, rfl⟩
  rcases beginsEscape_of_escape split (encode later) with ⟨rfl, begins⟩
  exact ⟨earlier, character, later, rfl, List.append_nil _, begins⟩

/-- What a text is like as a line. -/
structure Carries (text : String) (line : Bytes) : Prop where
  written : ∀ protocol : Protocol, protocol.version = 0 → protocol.textOpcode text = .unicode line
  clean : ∀ byte ∈ line, byte ∉ stops
  escapes : ∀ {before after : Bytes}, line = before ++ 0x5c :: after →
    ∃ earlier character later, text.toList = earlier ++ character :: later ∧
      before = encode earlier ∧ BeginsEscape after character.toNat (encode later)
  /-- The line is read to its end and no further. -/
  read : ∀ rest : Bytes,
    Opcode.read? ((Opcode.unicode line).bytes ++ rest) = some (.unicode line, rest)
  decoded : codePoints? line = some (text.toList.map Char.toNat)

private theorem carries_encode (text : String) : Carries text (encode text.toList) where
  written protocol oldest := if_pos oldest
  clean _ := notMem_stops_of_mem_encode
  escapes := exists_beginsEscape_of_encode
  read := Opcode.read?_bytes ⟨trivial, by simp [Opcode.lines, newline_notMem_encode]⟩
  decoded := codePoints?_encode text.toList

end LineEscaped

/-! ## Byte strings as texts -/

/-- How a byte string is carried, below protocol 3, by a text of the characters with the numbers of
its bytes. -/
structure CarriesBytes (protocol : Protocol) (payload : Bytes) (text : String) : Prop where
  characters : text.toList.map Char.toNat = payload.map UInt8.toNat
  /-- An empty byte string is made without a text. -/
  plan : protocol.version < 3 → ∀ key : Option MemoKey, protocol.bytes payload key =
    if payload = [] then protocol.call .bytes [] key
    else
      protocol.call .encodeText
        [[.op (protocol.textOpcode text), .remember none], [.sharedText "latin1"]] key
  line : protocol.version = 0 → LineEscaped.Carries text (LineEscaped.encode text.toList)
  /-- In binary the text is UTF-8, which is read back whole where its length fits four bytes. -/
  binary : 0 < protocol.version → protocol.version < 3 →
    protocol.textOpcode text = .binUnicode text ∧
      (Opcode.binUnicode text).arguments = Opcode.counted 4 (Utf8.encode text) ∧
      Utf8.decode? (Utf8.encode text) = some text ∧
      ((Utf8.encode text).length < 2 ^ 32 → ∀ rest : Bytes,
        Opcode.read? ((Opcode.binUnicode text).bytes ++ rest) = some (.binUnicode text, rest))
  created : Machine.created? (protocol.textOpcode text) = some (.text text)
  encoded : Machine.latin1? text.toList = some payload
  called : ∀ {heap : List Machine.Object} {content encoding : Machine.Value},
    Machine.textOf? heap content = some text → Machine.textOf? heap encoding = some "latin1" →
      Machine.call? heap .encodeText [content, encoding] = some (.bytes payload)

private theorem carriesBytes_latin1 (protocol : Protocol) (payload : Bytes) :
    CarriesBytes protocol payload (String.ofList (Quoted.latin1 payload)) := by
  have encoded : Machine.latin1? (String.ofList (Quoted.latin1 payload)).toList =
      some payload := by
    rw [String.toList_ofList, Stage.latin1?_latin1]
  exact {
    characters := by rw [String.toList_ofList, LineEscaped.map_toNat_latin1]
    plan := fun old key => by
      rw [Protocol.bytes, if_neg (Nat.not_le.2 old), if_congr List.isEmpty_iff rfl rfl]
      rfl
    line := fun _ => LineEscaped.carries_encode _
    binary := fun newer old => by
      refine ⟨?_, rfl, Utf8.decode?_encode _, fun short => ?_⟩
      · rw [Protocol.textOpcode, if_neg (Nat.ne_of_gt newer)]
        simp only
        rw [if_neg (by omega), if_neg (by omega)]
      · rw [Utf8.length_encode] at short
        exact Opcode.read?_bytes ⟨short, by simp [Opcode.lines]⟩
    created := Machine.created?_textOpcode protocol _
    encoded := encoded
    called := fun content encoding => Machine.call?_encodeText content encoding encoded }

/-- Every text survives as a line, and every byte string as a text below protocol 3. -/
theorem carries_texts (text : String) (protocol : Protocol) (payload : Bytes) :
    LineEscaped.Carries text (LineEscaped.encode text.toList) ∧
      CarriesBytes protocol payload (String.ofList (Quoted.latin1 payload)) :=
  ⟨LineEscaped.carries_encode text, carriesBytes_latin1 protocol payload⟩

end PickleTrial
