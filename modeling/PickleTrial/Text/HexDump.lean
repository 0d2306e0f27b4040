import PickleTrial.Bytes
import PickleTrial.Text.Numeral

/-! Hex dumps: rows of sixteen bytes with the offset of the first, the bytes in hexadecimal in two
groups of eight, and the bytes as characters in a gutter. -/

namespace PickleTrial.HexDump

def rowSize : Nat := 16

/-- Eight digits, or as many as an offset needs. -/
def offsetDigits (offset : Nat) : List Char :=
  Numeral.hexadecimal (max 8 (Nat.toDigits 16 offset).length) offset

/-- One more blank stands behind the eighth column. -/
def gap (position : Nat) : List Char :=
  if position = 7 then [' '] else []

def column (byte : UInt8) (position : Nat) : List Char :=
  Numeral.hexadecimal 2 byte.toNat ++ ' ' :: gap position

/-- The blanks in place of a byte that is not there. -/
def missing (position : Nat) : List Char :=
  ' ' :: ' ' :: ' ' :: gap position

def columns (bytes : Bytes) : List Char :=
  bytes.zipIdx.flatMap (fun (byte, position) => column byte position) ++
    (List.range' bytes.length (rowSize - bytes.length)).flatMap missing

/-- A byte in the gutter: printable ASCII, or a dot. -/
def gutter (byte : UInt8) : Char :=
  if 0x20 ≤ byte.toNat ∧ byte.toNat < 0x7f then Char.ofNat byte.toNat else '.'

def row (offset : Nat) (bytes : Bytes) : List Char :=
  offsetDigits offset ++ [' ', ' '] ++ columns bytes ++ [' ', '|'] ++ bytes.map gutter ++ ['|']

/-- The rows of the bytes from an offset on, as many at most. -/
def rowsFrom : (count : Nat) → (offset : Nat) → Bytes → List (List Char)
  | 0, _, _ => []
  | _, _, [] => []
  | count + 1, offset, bytes =>
      row offset (bytes.take rowSize) ::
        rowsFrom count (offset + rowSize) (bytes.drop rowSize)

def rows (bytes : Bytes) : List (List Char) :=
  rowsFrom bytes.length 0 bytes

/-- The rows with their line ends. -/
def text (bytes : Bytes) : String :=
  String.ofList ((rows bytes).flatMap (· ++ ['\n']))

example : text [0x80, 0x02, 0x4b, 0x01, 0x2e] =
    "00000000  80 02 4b 01 2e                                    |..K..|\n" := by
  decide +kernel

end PickleTrial.HexDump
