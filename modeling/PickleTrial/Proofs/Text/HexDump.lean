import Mathlib.Data.List.Forall2
import PickleTrial.Proofs.Text.Lines
import PickleTrial.Proofs.Text.LineEscaped
import PickleTrial.Text.HexDump

/-! Hex dumps are read back. The gutter opens at one place in every row, whatever the row is short
of, and what stands in front of it is the bytes in hexadecimal. -/

namespace PickleTrial.HexDump

/-! ## Reading -/

/-- The bytes in hexadecimal digits, two for each, with any blanks between them. -/
def bytes? : List Char → Option Bytes
  | [] => some []
  | ' ' :: rest => bytes? rest
  | [_] => none
  | high :: low :: rest => do
      let byte ← Numeral.ofHexadecimal? [high, low]
      return UInt8.ofNat byte :: (← bytes? rest)

/-- Where the offset of a row ends, and where its gutter opens. -/
def offsetWidth : Nat := 8

def gutterPlace : Nat := 60

/-- The columns of a row, with the blanks around them. -/
def hexPart (row : List Char) : List Char :=
  (row.take gutterPlace).drop offsetWidth

/-- The bytes in the columns of the lines of a dump, one line after the other. -/
def read? (dump : String) : Option Bytes :=
  ((Lines.split dump.toList).mapM fun line => bytes? (hexPart line)).map List.flatten

private theorem bytes?_blank (rest : List Char) : bytes? (' ' :: rest) = bytes? rest := by
  rw [bytes?]

private theorem bytes?_append_blanks (count : Nat) (rest : List Char) :
    bytes? (List.replicate count ' ' ++ rest) = bytes? rest := by
  induction count with
  | zero => rfl
  | succ count induction =>
      rw [List.replicate_succ, List.cons_append, bytes?_blank, induction]

private theorem bytes?_hexadecimal (byte : UInt8) (rest : List Char) :
    bytes? (Numeral.hexadecimal 2 byte.toNat ++ rest) = (bytes? rest).map (byte :: ·) := by
  have read := Numeral.ofHexadecimal?_hexadecimal 2 byte.toNat
  have digits : ∃ high low, Numeral.hexadecimal 2 byte.toNat = [high, low] ∧ high ≠ ' ' := by
    refine ⟨_, _, rfl, fun blank => ?_⟩
    have different : ∀ digit < 16, Numeral.hexDigit digit ≠ ' ' := by decide
    exact different _ (Nat.mod_lt _ (by omega)) blank
  rcases digits with ⟨high, low, digits, visible⟩
  rw [digits] at read ⊢
  rw [List.cons_append, List.cons_append, List.nil_append, bytes?, read]
  · rw [Nat.mod_eq_of_lt (show byte.toNat < 16 ^ 2 from byte.toNat_lt)]
    cases bytes? rest with
    | none => rfl
    | some bytes => exact congrArg (fun first => some (first :: bytes)) UInt8.ofNat_toNat
  · exact visible

/-! ## Columns -/

/-- A column is three characters wide, or four, with a byte in it and without. -/
private theorem length_column (byte : UInt8) (position : Nat) :
    (column byte position).length = (missing position).length := by
  simp [column, missing]
  omega

private theorem length_columns_from (bytes : Bytes) (position : Nat) :
    ((bytes.zipIdx position).flatMap fun (byte, position) => column byte position).length =
      ((List.range' position bytes.length).flatMap missing).length := by
  induction bytes generalizing position with
  | nil => rfl
  | cons byte bytes induction =>
      rw [List.zipIdx_cons, List.flatMap_cons, List.length_cons, List.range'_succ,
        List.flatMap_cons, List.length_append, List.length_append, induction, length_column]

/-- The columns of a row are as wide as a row of blanks. -/
private theorem length_columns {bytes : Bytes} (few : bytes.length ≤ rowSize) :
    (columns bytes).length = 49 := by
  have positions : List.range' 0 bytes.length ++
      List.range' bytes.length (rowSize - bytes.length) = List.range' 0 rowSize := by
    have joined := List.range'_append_1 (s := 0) (m := bytes.length)
      (n := rowSize - bytes.length)
    rwa [Nat.zero_add, Nat.add_sub_cancel' few] at joined
  rw [columns, List.length_append, length_columns_from, ← List.length_append,
    ← List.flatMap_append, positions]
  rfl

private theorem exists_replicate_gap (position : Nat) :
    ∃ count, gap position = List.replicate count ' ' := by
  rw [gap]
  split
  · exact ⟨1, rfl⟩
  · exact ⟨0, rfl⟩

private theorem bytes?_column (byte : UInt8) (position : Nat) (rest : List Char) :
    bytes? (column byte position ++ rest) = (bytes? rest).map (byte :: ·) := by
  rcases exists_replicate_gap position with ⟨count, blanks⟩
  rw [column, List.append_assoc, bytes?_hexadecimal, List.cons_append, bytes?_blank, blanks,
    bytes?_append_blanks]

private theorem bytes?_missing (position : Nat) (rest : List Char) :
    bytes? (missing position ++ rest) = bytes? rest := by
  rcases exists_replicate_gap position with ⟨count, blanks⟩
  simp only [missing, List.cons_append, bytes?_blank, blanks, bytes?_append_blanks]

private theorem bytes?_flatMap_missing (positions : List Nat) (rest : List Char) :
    bytes? (positions.flatMap missing ++ rest) = bytes? rest := by
  induction positions with
  | nil => rfl
  | cons position positions induction =>
      rw [List.flatMap_cons, List.append_assoc, bytes?_missing, induction]

private theorem bytes?_columns_from (bytes : Bytes) (position : Nat) (rest : List Char) :
    bytes? (((bytes.zipIdx position).flatMap fun (byte, position) => column byte position) ++
      rest) = (bytes? rest).map (bytes ++ ·) := by
  induction bytes generalizing position with
  | nil => exact Option.map_id'.symm
  | cons byte bytes induction =>
      rw [List.zipIdx_cons, List.flatMap_cons, List.append_assoc, bytes?_column, induction,
        Option.map_map]
      rfl

private theorem bytes?_columns (bytes : Bytes) (rest : List Char) :
    bytes? (columns bytes ++ rest) = (bytes? rest).map (bytes ++ ·) := by
  rw [columns, List.append_assoc, bytes?_columns_from, bytes?_flatMap_missing]

/-! ## Rows -/

/-- What a row is made of in front of its gutter. -/
inductive IsFiller : Char → Prop
  | blank : IsFiller ' '
  | digit {value : Nat} (small : value < 16) : IsFiller (Numeral.hexDigit value)

private theorem isFiller_of_mem_hexadecimal {width value : Nat} {character : Char}
    (member : character ∈ Numeral.hexadecimal width value) : IsFiller character := by
  induction width generalizing value with
  | zero => cases member
  | succ width induction =>
      rcases List.mem_append.1 member with earlier | last
      · exact induction earlier
      · rw [List.mem_singleton.1 last]
        exact .digit (Nat.mod_lt _ (by omega))

private theorem isFiller_of_mem_gap {position : Nat} {character : Char}
    (member : character ∈ gap position) : IsFiller character := by
  rcases exists_replicate_gap position with ⟨count, blanks⟩
  rw [blanks] at member
  rw [List.eq_of_mem_replicate member]
  exact .blank

private theorem isFiller_of_mem_columns {bytes : Bytes} {character : Char}
    (member : character ∈ columns bytes) : IsFiller character := by
  rcases List.mem_append.1 member with shown | absent
  · rcases List.mem_flatMap.1 shown with ⟨⟨byte, position⟩, -, inside⟩
    rcases List.mem_append.1 inside with digit | behind
    · exact isFiller_of_mem_hexadecimal digit
    · rcases List.mem_cons.1 behind with rfl | blank
      · exact .blank
      · exact isFiller_of_mem_gap blank
  · rcases List.mem_flatMap.1 absent with ⟨position, -, inside⟩
    simp only [missing, List.mem_cons] at inside
    rcases inside with rfl | rfl | rfl | blank
    · exact .blank
    · exact .blank
    · exact .blank
    · exact isFiller_of_mem_gap blank

private theorem IsFiller.isPrintable {character : Char} (filler : IsFiller character) :
    Numeral.IsPrintable character := by
  cases filler with
  | blank => decide
  | digit small => exact Numeral.isPrintable_hexDigit small

private theorem IsFiller.ne_bar {character : Char} (filler : IsFiller character) :
    character ≠ '|' := by
  cases filler with
  | blank => decide
  | digit small => decide +revert

/-- A byte as it is shown in the gutter: itself where it is printable ASCII, or a dot. -/
inductive Shows (byte : UInt8) : Char → Prop
  | itself {character : Char} (printable : Numeral.IsPrintable character)
      (same : character.toNat = byte.toNat) : Shows byte character
  | dot (unprintable : byte.toNat < 0x20 ∨ 0x7f ≤ byte.toNat) : Shows byte '.'

private theorem Shows.isPrintable {byte : UInt8} {character : Char} (shows : Shows byte character) :
    Numeral.IsPrintable character := by
  cases shows with
  | itself printable => exact printable
  | dot => decide

private theorem shows_gutter (byte : UInt8) : Shows byte (gutter byte) := by
  have same := LineEscaped.toNat_ofNat_toNat byte
  rw [gutter]
  split
  · rename_i printable
    exact .itself (by rwa [Numeral.IsPrintable, same]) same
  · exact .dot (by omega)

/-- A row of a dump that shows the bytes from an offset on. -/
structure RowShows (row : List Char) (offset : Nat) (bytes : Bytes) : Prop where
  offset : Numeral.ofHexadecimal? (row.take offsetWidth) = some offset
  columns : bytes? (hexPart row) = some bytes
  opens : row.idxOf '|' = gutterPlace
  gutter : ∃ shown, row.drop gutterPlace = '|' :: shown ++ ['|'] ∧ List.Forall₂ Shows bytes shown
  unbroken : ∀ character ∈ row, Numeral.IsPrintable character

/-- Eight digits are enough for the offsets of short data. -/
private theorem offsetDigits_eq {offset : Nat} (short : offset < 2 ^ 32) :
    offsetDigits offset = Numeral.hexadecimal offsetWidth offset := by
  have few : (Nat.toDigits 16 offset).length ≤ 8 :=
    (Nat.length_toDigits_le_iff (by omega) (by omega)).2 short
  rw [offsetDigits, Nat.max_eq_left few, offsetWidth]

/-- What a row shows in front of its gutter. -/
def front (offset : Nat) (bytes : Bytes) : List Char :=
  Numeral.hexadecimal offsetWidth offset ++ (' ' :: ' ' :: columns bytes ++ [' '])

private theorem row_eq {offset : Nat} (short : offset < 2 ^ 32) (bytes : Bytes) :
    row offset bytes = front offset bytes ++ ('|' :: bytes.map gutter ++ ['|']) := by
  simp [row, front, offsetDigits_eq short]

private theorem length_front {bytes : Bytes} (few : bytes.length ≤ rowSize) (offset : Nat) :
    (front offset bytes).length = gutterPlace := by
  simp [front, length_columns few, offsetWidth, gutterPlace]

private theorem isFiller_of_mem_front {offset : Nat} {bytes : Bytes} {character : Char}
    (member : character ∈ front offset bytes) : IsFiller character := by
  simp only [front, List.mem_append, List.mem_cons, List.not_mem_nil, or_false] at member
  rcases member with digit | ((rfl | rfl | inside) | rfl)
  · exact isFiller_of_mem_hexadecimal digit
  · exact .blank
  · exact .blank
  · exact isFiller_of_mem_columns inside
  · exact .blank

private theorem rowShows_row {offset : Nat} {bytes : Bytes} (short : offset < 2 ^ 32)
    (few : bytes.length ≤ rowSize) : RowShows (row offset bytes) offset bytes := by
  have width := length_front few offset
  have digits : (Numeral.hexadecimal offsetWidth offset).length = offsetWidth :=
    Numeral.length_hexadecimal _ _
  have plain : '|' ∉ front offset bytes := fun bar => (isFiller_of_mem_front bar).ne_bar rfl
  have start : (row offset bytes).take gutterPlace = front offset bytes := by
    rw [row_eq short, List.take_left' width]
  have hex : hexPart (row offset bytes) = ' ' :: ' ' :: columns bytes ++ [' '] := by
    rw [hexPart, start, front, List.drop_left' digits]
  have rest : (row offset bytes).drop gutterPlace = '|' :: bytes.map gutter ++ ['|'] := by
    rw [row_eq short, List.drop_left' width]
  have shown : List.Forall₂ Shows bytes (bytes.map gutter) :=
    List.forall₂_map_right_iff.2 (List.forall₂_same.2 fun byte _ => shows_gutter byte)
  refine ⟨?_, ?_, ?_, ⟨_, rest, shown⟩, ?_⟩
  · rw [row_eq short, front, List.append_assoc, List.take_left' digits,
      Numeral.ofHexadecimal?_hexadecimal, Nat.mod_eq_of_lt]
    exact short
  · rw [hex, List.cons_append, List.cons_append, bytes?_blank, bytes?_blank, bytes?_columns,
      bytes?_blank]
    exact congrArg some (List.append_nil bytes)
  · rw [row_eq short, List.idxOf_append_of_notMem plain, List.cons_append, List.idxOf_cons_self,
      width, Nat.add_zero]
  · intro character member
    rw [row_eq short, List.mem_append, List.cons_append, List.mem_cons, List.mem_append,
      List.mem_map, List.mem_singleton] at member
    rcases member with before | rfl | ⟨byte, -, rfl⟩ | rfl
    · exact (isFiller_of_mem_front before).isPrintable
    · decide
    · exact (shows_gutter byte).isPrintable
    · decide

/-! ## Dumps -/

variable {count offset : Nat} {bytes : Bytes}

private theorem rowsFrom_cons (count offset : Nat) (byte : UInt8) (bytes : Bytes) :
    rowsFrom (count + 1) offset (byte :: bytes) =
      row offset ((byte :: bytes).take rowSize) ::
        rowsFrom count (offset + rowSize) ((byte :: bytes).drop rowSize) :=
  rfl

private theorem length_drop_rowSize {byte : UInt8} (enough : (byte :: bytes).length ≤ count + 1) :
    ((byte :: bytes).drop rowSize).length ≤ count := by
  rw [List.length_drop, rowSize]
  omega

private theorem length_rowsFrom (enough : bytes.length ≤ count) :
    (rowsFrom count offset bytes).length = (bytes.length + 15) / 16 := by
  induction count generalizing offset bytes with
  | zero =>
      rw [List.eq_nil_of_length_eq_zero (Nat.le_zero.1 enough)]
      rfl
  | succ count induction =>
      cases bytes with
      | nil => rfl
      | cons byte bytes =>
          rw [rowsFrom_cons, List.length_cons, induction (length_drop_rowSize enough),
            List.length_drop, rowSize, List.length_cons]
          omega

private theorem getElem_rowsFrom (enough : bytes.length ≤ count) {index : Nat}
    (inside : index < (rowsFrom count offset bytes).length) :
    (rowsFrom count offset bytes)[index] =
      row (offset + 16 * index) ((bytes.drop (16 * index)).take rowSize) := by
  induction count generalizing offset bytes index with
  | zero => cases inside
  | succ count induction =>
      cases bytes with
      | nil => cases inside
      | cons byte bytes =>
          cases index with
          | zero => rfl
          | succ index =>
              have next := induction (length_drop_rowSize enough) (Nat.lt_of_succ_lt_succ inside)
              have place : offset + rowSize + 16 * index = offset + 16 * (index + 1) := by
                rw [rowSize]
                omega
              have behind : rowSize + 16 * index = 16 * (index + 1) := by
                rw [rowSize]
                omega
              rwa [List.drop_drop, place, behind] at next

private theorem mapM_rowsFrom (enough : bytes.length ≤ count)
    (short : ∀ place < bytes.length, offset + place < 2 ^ 32) :
    ((rowsFrom count offset bytes).mapM fun row => bytes? (hexPart row)).map List.flatten =
      some bytes := by
  induction count generalizing offset bytes with
  | zero =>
      rw [List.eq_nil_of_length_eq_zero (Nat.le_zero.1 enough)]
      rfl
  | succ count induction =>
      cases bytes with
      | nil => rfl
      | cons byte bytes =>
          have further : ∀ place < ((byte :: bytes).drop rowSize).length,
              offset + rowSize + place < 2 ^ 32 := by
            intro place inside
            rw [List.length_drop] at inside
            have bound := short (rowSize + place) (by omega)
            omega
          rcases Option.map_eq_some_iff.1 (induction (length_drop_rowSize enough) further) with
            ⟨others, read, joined⟩
          have first := (rowShows_row (short 0 (Nat.succ_pos _))
            (List.length_take_le rowSize (byte :: bytes))).columns
          rw [Nat.add_zero] at first
          rw [rowsFrom_cons, List.mapM_cons, first, read]
          exact congrArg some ((congrArg (_ ++ ·) joined).trans (List.take_append_drop _ _))

private theorem split_text (rows : List (List Char))
    (unbroken : ∀ row ∈ rows, ∀ character ∈ row, Numeral.IsPrintable character) :
    Lines.split (rows.flatMap (· ++ ['\n'])) = rows := by
  induction rows with
  | nil => rfl
  | cons row rows induction =>
      have inRow := unbroken row List.mem_cons_self
      have unended : '\n' ∉ row := fun newline => absurd (inRow _ newline) (by decide)
      have other : row.getLast? ≠ some '\r' := fun last =>
        absurd (inRow _ (List.mem_of_getLast? last)) (by decide)
      rw [List.flatMap_cons, List.append_assoc, List.singleton_append,
        Lines.split_append unended, Lines.ended_iff.1 (.plain other),
        induction fun other member => unbroken other (List.mem_cons_of_mem _ member)]

/-- A dump that shows data and nothing else. -/
structure IsDump (dump : String) (data : Bytes) : Prop where
  ended : dump.toList = (Lines.split dump.toList).flatMap (· ++ ['\n'])
  length : (Lines.split dump.toList).length = (data.length + 15) / 16
  shows : ∀ index (inside : index < (Lines.split dump.toList).length),
    RowShows (Lines.split dump.toList)[index] (16 * index) ((data.drop (16 * index)).take 16)
  reads : read? dump = some data

private theorem rowShows_rows {data : Bytes} (short : data.length < 2 ^ 32) {index : Nat}
    (inside : index < (rows data).length) :
    RowShows (rows data)[index] (16 * index) ((data.drop (16 * index)).take 16) := by
  have length : (rows data).length = (data.length + 15) / 16 := length_rowsFrom (Nat.le_refl _)
  have place : 16 * index < 2 ^ 32 := by
    rw [length] at inside
    omega
  have equal := getElem_rowsFrom (Nat.le_refl data.length) inside
  rw [Nat.zero_add] at equal
  exact equal ▸ rowShows_row place (List.length_take_le rowSize _)

/-- Short data is dumped, whatever its last row is short of. -/
theorem isDump_text (data : Bytes) (short : data.length < 2 ^ 32) : IsDump (text data) data := by
  have unbroken : ∀ row ∈ rows data, ∀ character ∈ row, Numeral.IsPrintable character := by
    intro row member
    rcases List.getElem_of_mem member with ⟨index, inside, rfl⟩
    exact (rowShows_rows short inside).unbroken
  have shown : (text data).toList = (rows data).flatMap (· ++ ['\n']) := String.toList_ofList
  have lines : Lines.split (text data).toList = rows data := by
    rw [shown, split_text _ unbroken]
  refine ⟨?_, ?_, ?_, ?_⟩
  · rw [lines, shown]
  · rw [lines]
    exact length_rowsFrom (Nat.le_refl _)
  · rw [lines]
    exact fun index inside => rowShows_rows short inside
  · rw [read?, lines]
    exact mapM_rowsFrom (Nat.le_refl _) fun place inside => by omega

/-- One row and two bytes more, with some that a row cannot hold as they are. -/
def breaking : Bytes :=
  [0x0a, 0x7c, 0x7e, 0x7f, 0x80, 0x0d, 0x41, 0x42, 0x43, 0x44, 0x45, 0x46, 0x47,
    0x48, 0x49, 0x4a, 0x20, 0xff]

theorem isDump_text_breaking :
    text breaking =
        "00000000  0a 7c 7e 7f 80 0d 41 42  43 44 45 46 47 48 49 4a  |.|~...ABCDEFGHIJ|\n" ++
        "00000010  20 ff                                             | .|\n" ∧
      IsDump (text breaking) breaking :=
  ⟨by decide +kernel, isDump_text breaking (by decide)⟩

end PickleTrial.HexDump
