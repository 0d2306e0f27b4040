import PickleTrial.Proofs.Graph.Rendering
import PickleTrial.Proofs.Text.LineEscaped

/-! Quoted texts read back. A reader goes on to the first quote that no backslash takes away, and
finds there the end of the literal and all of the text; so no two texts are quoted alike, and no two
byte strings. -/

namespace PickleTrial

namespace Quoted

/-! ## Reading -/

/-- What a character stands for behind a backslash, beside `x` with its digits. -/
def escaped? : Char → Option Char
  | '\\' => some '\\'
  | 'n' => some '\n'
  | 'r' => some '\r'
  | 't' => some '\t'
  | '\'' => some '\''
  | '"' => some '"'
  | _ => none

/-- The numbers of the characters or bytes up to the quote that closes a literal, and what is
behind it. A line may not end before, and a backslash begins an escape in any case. -/
def read? (quote : Char) : List Char → Option (List Nat × List Char)
  | [] => none
  | '\\' :: 'x' :: high :: low :: rest =>
      (Numeral.ofHexadecimal? [high, low]).bind fun code =>
        (read? quote rest).map (Prod.map (code :: ·) id)
  | '\\' :: letter :: rest =>
      (escaped? letter).bind fun character =>
        (read? quote rest).map (Prod.map (character.toNat :: ·) id)
  | head :: rest =>
      if head = quote then some ([], rest)
      else if head = '\n' ∨ head = '\r' then none
      else (read? quote rest).map (Prod.map (head.toNat :: ·) id)

/-- A quote behind a backslash does not close the literal, and an escape must be one that there
is. -/
example : read? '\'' "\\'\\x1b' + 'b'".toList = some ([0x27, 0x1b], " + 'b'".toList) ∧
    read? '\'' "\\q'".toList = none ∧ read? '\'' "\\'".toList = none := by
  decide +kernel

private theorem read?_escaped {letter character : Char} (means : escaped? letter = some character)
    (quote : Char) (rest : List Char) :
    read? quote ('\\' :: letter :: rest) =
      (read? quote rest).map (Prod.map (character.toNat :: ·) id) := by
  have noDigits : letter ≠ 'x' := by
    rintro rfl
    cases means
  rw [read?]
  · rw [means, Option.bind_some]
  · rintro _ _ _ rfl
    exact absurd rfl noDigits

private theorem read?_hexadecimal {character : Char} (narrow : character.toNat < 0x100)
    (quote : Char) (rest : List Char) :
    read? quote ('\\' :: 'x' :: (Numeral.hexadecimal 2 character.toNat ++ rest)) =
      (read? quote rest).map (Prod.map (character.toNat :: ·) id) := by
  have digits : Numeral.ofHexadecimal? (Numeral.hexadecimal 2 character.toNat) =
      some (character.toNat % 16 ^ 2) := Numeral.ofHexadecimal?_hexadecimal 2 _
  rw [Nat.mod_eq_of_lt (show character.toNat < 16 ^ 2 from narrow)] at digits
  simp only [Numeral.hexadecimal, List.nil_append, List.cons_append] at digits ⊢
  rw [read?, digits, Option.bind_some]

private theorem read?_itself {quote character : Char} (plain : character ≠ '\\')
    (inside : character ≠ quote) (sameLine : ¬(character = '\n' ∨ character = '\r'))
    (rest : List Char) :
    read? quote (character :: rest) =
      (read? quote rest).map (Prod.map (character.toNat :: ·) id) := by
  rw [read?]
  · rw [if_neg inside, if_neg sameLine]
  · rintro _ _ _ rfl
    exact absurd rfl plain
  · rintro _ _ rfl
    exact absurd rfl plain

private theorem read?_quote {quote : Char} (plain : quote ≠ '\\') (rest : List Char) :
    read? quote (quote :: rest) = some ([], rest) := by
  rw [read?]
  · rw [if_pos rfl]
  · rintro _ _ _ rfl
    exact absurd rfl plain
  · rintro _ _ rfl
    exact absurd rfl plain

/-! ## Writing -/

def IsQuote (character : Char) : Prop :=
  character = '\'' ∨ character = '"'

private theorem IsQuote.ne_backslash {quote : Char} (isQuote : IsQuote quote) : quote ≠ '\\' := by
  rcases isQuote with rfl | rfl <;> decide

private theorem IsQuote.escaped? {quote : Char} (isQuote : IsQuote quote) :
    escaped? quote = some quote := by
  rcases isQuote with rfl | rfl <;> rfl

private theorem isQuote_quoteFor (text : List Char) : IsQuote (quoteFor text) := by
  rw [quoteFor]
  split
  · exact .inr rfl
  · exact .inl rfl

private theorem quoteFor_eq_double_iff {text : List Char} :
    quoteFor text = '"' ↔ '\'' ∈ text ∧ '"' ∉ text := by
  rw [quoteFor]
  split <;> simp_all

private theorem isPrintable_of_escaped? {letter character : Char}
    (means : escaped? letter = some character) : Numeral.IsPrintable letter := by
  rw [Quoted.escaped?.eq_def] at means
  split at means
  case h_7 => cases means
  all_goals decide

/-- How a character is written within quotes. -/
inductive Written (standsForItself : Char → Bool) (quote character : Char) : List Char → Prop
  | escaped {letter : Char} (means : escaped? letter = some character) :
      Written standsForItself quote character ['\\', letter]
  | itself (stands : standsForItself character = true) (plain : character ≠ '\\')
      (inside : character ≠ quote) (sameLine : ¬(character = '\n' ∨ character = '\r')) :
      Written standsForItself quote character [character]
  | digits (hidden : standsForItself character = false) :
      Written standsForItself quote character
        ('\\' :: 'x' :: Numeral.hexadecimal 2 character.toNat)

section Bodies

variable {standsForItself : Char → Bool} {quote : Char}

private theorem read?_written {character : Char} {characters : List Char}
    (written : Written standsForItself quote character characters)
    (narrow : standsForItself character = false → character.toNat < 0x100) (rest : List Char) :
    read? quote (characters ++ rest) =
      (read? quote rest).map (Prod.map (character.toNat :: ·) id) := by
  cases written with
  | escaped means => exact read?_escaped means quote rest
  | itself _ plain inside sameLine => exact read?_itself plain inside sameLine rest
  | digits hidden => exact read?_hexadecimal (narrow hidden) quote rest

/-! ## Backslashes in front of quotes -/

/-- How many backslashes there are at the end. -/
def backslashes (before : List Char) : Nat :=
  (before.reverse.takeWhile (· = '\\')).length

/-- What follows is escaped: of the backslashes right in front of it the last begins an escape. -/
def Escapes (before : List Char) : Prop :=
  backslashes before % 2 = 1

private theorem hexDigit_ne {special : Char} (isSpecial : IsQuote special ∨ special = '\\')
    (value : Nat) : Numeral.hexDigit (value % 16) ≠ special := by
  have small := Nat.mod_lt value (by omega : 0 < 16)
  generalize value % 16 = digit at small
  rcases isSpecial with (rfl | rfl) | rfl <;> decide +revert

private theorem backslashes_append_backslash (before : List Char) :
    backslashes (before ++ ['\\']) = backslashes before + 1 := by
  simp [backslashes]

private theorem backslashes_append_of_ne (before : List Char) {last : Char} (other : last ≠ '\\') :
    backslashes (before ++ [last]) = 0 := by
  simp [backslashes, other]

/-- What is written for a character leaves no escape open. -/
private theorem backslashes_written {character : Char} {characters : List Char}
    (written : Written standsForItself quote character characters) {before : List Char}
    (closed : backslashes before % 2 = 0) : backslashes (before ++ characters) % 2 = 0 := by
  cases written with
  | @escaped letter means =>
      rw [List.append_cons before '\\' [letter]]
      by_cases backslash : letter = '\\'
      · rw [backslash, backslashes_append_backslash, backslashes_append_backslash]
        omega
      · rw [backslashes_append_of_ne _ backslash]
  | itself _ plain => rw [backslashes_append_of_ne _ plain]
  | digits =>
      rw [Numeral.hexadecimal, ← List.cons_append, ← List.cons_append, ← List.append_assoc,
        backslashes_append_of_ne _ (hexDigit_ne (.inr rfl) _)]

/-! ## Bodies -/

variable (isQuote : IsQuote quote)

include isQuote

private theorem written_escape (standsForItself : Char → Bool) (character : Char) :
    Written standsForItself quote character (escape standsForItself quote character) := by
  rw [escape]
  split_ifs with backslash newline carriage tab same stands
  · exact .escaped (congrArg some backslash.symm)
  · exact .escaped (congrArg some newline.symm)
  · exact .escaped (congrArg some carriage.symm)
  · exact .escaped (congrArg some tab.symm)
  · exact .escaped (same ▸ isQuote.escaped?)
  · exact .itself stands backslash same (not_or.2 ⟨newline, carriage⟩)
  · exact .digits (Bool.eq_false_iff.2 stands)

/-- A body is read up to the quote behind it, whatever is next to what within. -/
private theorem read?_body {text : List Char}
    (narrow : ∀ character ∈ text, standsForItself character = false → character.toNat < 0x100)
    (rest : List Char) :
    read? quote (body standsForItself quote text ++ quote :: rest) =
      some (text.map Char.toNat, rest) := by
  induction text with
  | nil => exact read?_quote isQuote.ne_backslash rest
  | cons head tail induction =>
      have parts := List.forall_mem_cons.1 narrow
      have behind := induction parts.2
      rw [body] at behind
      rw [body, List.flatMap_cons, List.append_assoc,
        read?_written (written_escape isQuote standsForItself head) parts.1, behind]
      rfl

private theorem backslashes_body (standsForItself : Char → Bool) (text : List Char) :
    backslashes (body standsForItself quote text) % 2 = 0 := by
  induction text using List.reverseRecOn with
  | nil => rfl
  | append_singleton text last induction =>
      rw [body] at induction
      rw [body, List.flatMap_append, List.flatMap_singleton]
      exact backslashes_written (written_escape isQuote standsForItself last) induction

private theorem notMem_digits (value : Nat) :
    quote ∉ '\\' :: 'x' :: Numeral.hexadecimal 2 value := by
  have first := hexDigit_ne (.inl isQuote) (value / 16)
  have second := hexDigit_ne (.inl isQuote) value
  have letter : quote ≠ 'x' := by rcases isQuote with rfl | rfl <;> decide
  simp [Numeral.hexadecimal, isQuote.ne_backslash, letter, first.symm, second.symm]

/-- The quote is written for no character but itself, behind a backslash. -/
private theorem eq_of_written {character : Char} {before after : List Char}
    (written : Written standsForItself quote character (before ++ quote :: after)) :
    before = ['\\'] := by
  have member : quote ∈ before ++ quote :: after := by simp
  generalize whole : before ++ quote :: after = characters at written member
  cases written with
  | escaped means =>
      rcases before with _ | ⟨first, _ | ⟨second, rest⟩⟩
      · exact absurd (List.cons.inj whole).1 isQuote.ne_backslash
      · rw [(List.cons.inj whole).1]
      · cases rest <;> cases (List.cons.inj (List.cons.inj whole).2).2
  | itself _ _ inside => exact absurd (List.mem_singleton.1 member).symm inside
  | digits => exact absurd member (notMem_digits isQuote _)

/-- Every quote in a body is escaped. -/
private theorem escapes_of_body {text before after : List Char}
    (equal : body standsForItself quote text = before ++ quote :: after) : Escapes before := by
  rcases exists_of_flatMap_eq_append equal with
    ⟨earlier, character, later, left, right, rfl, split, rfl, -⟩
  have written := written_escape isQuote standsForItself character
  rw [split] at written
  have closed := backslashes_body isQuote standsForItself earlier
  rw [body] at closed
  rw [eq_of_written isQuote written, Escapes, backslashes_append_backslash]
  omega

/-- Within quotes there are the characters that stand for themselves and others that are printable
anyway. -/
private theorem allowed_of_mem_body {allowed : Char → Prop}
    (printable : ∀ {character}, Numeral.IsPrintable character → allowed character)
    (stands : ∀ {character}, standsForItself character = true → allowed character)
    {text : List Char} {character : Char}
    (member : character ∈ body standsForItself quote text) : allowed character := by
  rcases List.mem_flatMap.1 member with ⟨origin, -, inEscape⟩
  have written := written_escape isQuote standsForItself origin
  generalize escape standsForItself quote origin = characters at written inEscape
  cases written with
  | @escaped letter means =>
      rcases List.mem_pair.1 inEscape with rfl | rfl
      · exact printable (by decide)
      · exact printable (isPrintable_of_escaped? means)
  | itself itself =>
      rw [List.mem_singleton.1 inEscape]
      exact stands itself
  | digits =>
      rcases List.mem_cons.1 inEscape with rfl | inEscape
      · exact printable (by decide)
      · rcases List.mem_cons.1 inEscape with rfl | digit
        · exact printable (by decide)
        · exact printable (Numeral.isPrintable_of_mem_hexadecimal digit)

end Bodies

/-! ## Literals -/

/-- What stands between quotes for the numbers of characters or bytes. -/
structure Spells (numbers : List Nat) (quote : Char) (body : List Char) : Prop where
  isQuote : IsQuote quote
  double : quote = '"' ↔ '\''.toNat ∈ numbers ∧ '"'.toNat ∉ numbers
  /-- Whatever follows the literal, the numbers are read and nothing behind the quote is. -/
  read : ∀ rest, read? quote (body ++ quote :: rest) = some (numbers, rest)
  escapes : ∀ {before after : List Char}, body = before ++ quote :: after → Escapes before

private theorem Spells.unique {numbers others : List Nat} {quote other : Char}
    {body otherBody : List Char} (spells : Spells numbers quote body)
    (otherSpells : Spells others other otherBody)
    (same : quote :: (body ++ [quote]) = other :: (otherBody ++ [other])) : numbers = others := by
  rcases List.cons.inj same with ⟨rfl, whole⟩
  have found := spells.read []
  rw [whole, otherSpells.read []] at found
  exact (congrArg Prod.fst (Option.some.inj found)).symm

private theorem mem_map_toNat {text : List Char} {character : Char} :
    character.toNat ∈ text.map Char.toNat ↔ character ∈ text :=
  List.mem_map_of_injective fun _ _ => Char.toNat_inj.1

private theorem spells_body {standsForItself : Char → Bool} {text : List Char}
    (narrow : ∀ character ∈ text, standsForItself character = false → character.toNat < 0x100) :
    Spells (text.map Char.toNat) (quoteFor text) (body standsForItself (quoteFor text) text) where
  isQuote := isQuote_quoteFor text
  double := by rw [mem_map_toNat, mem_map_toNat, quoteFor_eq_double_iff]
  read := read?_body (isQuote_quoteFor text) narrow
  escapes := escapes_of_body (isQuote_quoteFor text)

private theorem narrow_of_isTextCharacter {character : Char}
    (hidden : isTextCharacter character = false) : character.toNat < 0x100 := by
  by_contra wide
  rw [isTextCharacter, Bool.or_eq_false_iff, decide_eq_false_iff_not] at hidden
  omega

private theorem narrow_of_mem_latin1 {payload : Bytes} {character : Char}
    (member : character ∈ latin1 payload) : character.toNat < 0x100 := by
  rcases List.mem_map.1 member with ⟨byte, -, rfl⟩
  rw [LineEscaped.toNat_ofNat_toNat]
  exact byte.toNat_lt

/-- The control characters, in ASCII and behind it. -/
def IsControl (character : Char) : Prop :=
  character.toNat < 0x20 ∨ (0x7f ≤ character.toNat ∧ character.toNat < 0xa0)

/-- A literal is a quote, what it spells and the quote again, all of characters of a kind. -/
structure IsLiteral (allowed : Char → Prop) (numbers : List Nat) (literal : String) : Prop where
  spells : ∃ quote body, literal = String.ofList (quote :: (body ++ [quote])) ∧
    Spells numbers quote body
  allowed : ∀ character ∈ literal.toList, allowed character

private theorem isLiteral_enclose {standsForItself : Char → Bool} {allowed : Char → Prop}
    (printable : ∀ {character}, Numeral.IsPrintable character → allowed character)
    (stands : ∀ {character}, standsForItself character = true → allowed character)
    {text : List Char}
    (narrow : ∀ character ∈ text, standsForItself character = false → character.toNat < 0x100) :
    IsLiteral allowed (text.map Char.toNat) (String.ofList (enclose standsForItself text)) where
  spells := ⟨_, _, rfl, spells_body narrow⟩
  allowed := by
    have isQuote := isQuote_quoteFor text
    have quote : allowed (quoteFor text) := by
      apply printable
      rcases isQuote with same | same <;> rw [same] <;> decide
    rw [String.toList_ofList, enclose, List.forall_mem_cons, List.forall_mem_append]
    refine ⟨quote, fun _ => allowed_of_mem_body isQuote printable stands, ?_⟩
    simpa using quote

private theorem isLiteral_text (value : String) :
    IsLiteral (¬IsControl ·) (value.toList.map Char.toNat) (text value) := by
  apply isLiteral_enclose
  · intro character printable control
    rcases printable with ⟨low, high⟩
    rcases control with small | ⟨large, -⟩ <;> omega
  · intro character itself control
    simp only [isTextCharacter, Bool.or_eq_true, Bool.and_eq_true, decide_eq_true_eq] at itself
    rcases control with small | ⟨large, small⟩ <;> omega
  · exact fun _ _ => narrow_of_isTextCharacter

private theorem isLiteral_bytes (payload : Bytes) :
    IsLiteral Numeral.IsPrintable (payload.map UInt8.toNat) (bytes payload) := by
  rw [← LineEscaped.map_toNat_latin1]
  apply isLiteral_enclose
  · exact id
  · intro character itself
    simpa [isPrintableAscii, Numeral.IsPrintable] using itself
  · exact fun _ member _ => narrow_of_mem_latin1 member

private theorem IsLiteral.unique {allowed other : Char → Prop} {numbers others : List Nat}
    {literal : String} (first : IsLiteral allowed numbers literal)
    (second : IsLiteral other others literal) : numbers = others := by
  rcases first.spells with ⟨quote, body, rfl, spells⟩
  rcases second.spells with ⟨otherQuote, otherBody, same, otherSpells⟩
  exact spells.unique otherSpells (String.ofList_injective same)

theorem text_injective : Function.Injective text := by
  intro left right same
  have numbers := (same ▸ isLiteral_text left).unique (isLiteral_text right)
  exact String.toList_inj.1 (List.map_injective_iff.2 (fun _ _ => Char.toNat_inj.1) numbers)

private theorem bytes_injective : Function.Injective bytes := by
  intro left right same
  have numbers := (same ▸ isLiteral_bytes left).unique (isLiteral_bytes right)
  exact List.map_injective_iff.2 (fun _ _ => UInt8.toNat_inj.1) numbers

end Quoted

/-! ## Notation -/

/-- How a node is shown, wherever it is. -/
def Node.IsShownAs (node : Node) (text : String) : Prop :=
  ∀ (graph : Graph) (id : NodeId), graph.node? id = some node → graph.render id = text

private theorem Node.isShownAs_of_leaf {node : Node} (leaf : node.ellipsis? = Option.none) :
    node.IsShownAs (node.enclose []) := by
  intro graph id present
  rw [graph.render_eq, Graph.renderAlong_of_leaf present leaf]

/-- Strings and byte strings are shown as literals that tell them apart from all others. -/
structure Quotes (value : String) (payload : Bytes) : Prop where
  text : Quoted.IsLiteral (¬Quoted.IsControl ·) (value.toList.map Char.toNat) (Quoted.text value)
  bytes : Quoted.IsLiteral Numeral.IsPrintable (payload.map UInt8.toNat) (Quoted.bytes payload)
  shownText : (Node.text value).IsShownAs (Quoted.text value)
  shownBytes : (Node.bytes payload).IsShownAs ("b" ++ Quoted.bytes payload)
  shownByteArray :
    (Node.byteArray payload).IsShownAs ("bytearray(b" ++ Quoted.bytes payload ++ ")")

theorem quotes_injectively :
    (∀ value payload, Quotes value payload) ∧ Function.Injective Quoted.text ∧
      Function.Injective Quoted.bytes :=
  ⟨fun value payload =>
    ⟨Quoted.isLiteral_text value, Quoted.isLiteral_bytes payload, Node.isShownAs_of_leaf rfl,
      Node.isShownAs_of_leaf rfl, Node.isShownAs_of_leaf rfl⟩,
    Quoted.text_injective, Quoted.bytes_injective⟩

end PickleTrial
