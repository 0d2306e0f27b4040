import PickleTrial.Text.Numeral

/-! Compact JSON texts. A string is written in runs of sixteen bytes. A whole run of plain ASCII is
copied, with deletes in it; in any other run, and in what is left at the end, deletes are escaped
like the other control characters. -/

namespace PickleTrial.Json

def escape (character : Char) : List Char :=
  if character = '"' then ['\\', '"']
  else if character = '\\' then ['\\', '\\']
  else if character = '\n' then ['\\', 'n']
  else if character = '\r' then ['\\', 'r']
  else if character = '\t' then ['\\', 't']
  else if character = '\x08' then ['\\', 'b']
  else if character = '\x0c' then ['\\', 'f']
  else if character.toNat < 0x20 ∨ character.toNat = 0x7f then
    '\\' :: 'u' :: Numeral.hexadecimal 4 character.toNat
  else [character]

def runSize : Nat := 16

/-- ASCII characters that may be copied in a run. -/
def isPlain (character : Char) : Bool :=
  0x20 ≤ character.toNat && character.toNat < 0x80 && character ≠ '"' && character ≠ '\\'

def writeRun (run : List Char) : List Char :=
  if run.length = runSize ∧ run.all isPlain then run else run.flatMap escape

/-- A text of which a run has begun, latest character first, that has room for some bytes more.
The last character of a run may reach beyond it. -/
def writeRuns : (begun : List Char) → (room : Nat) → List Char → List Char
  | begun, _, [] => writeRun begun.reverse
  | begun, room, head :: tail =>
      if head.utf8Size < room then writeRuns (head :: begun) (room - head.utf8Size) tail
      else writeRun (head :: begun).reverse ++ writeRuns [] runSize tail

def string (text : String) : String :=
  String.ofList ('"' :: (writeRuns [] runSize text.toList ++ ['"']))

def number (value : Nat) : String :=
  String.ofList (Numeral.decimal value)

def array (items : List String) : String :=
  "[" ++ ",".intercalate items ++ "]"

def object (fields : List (String × String)) : String :=
  "\x7b" ++ ",".intercalate (fields.map fun field => string field.1 ++ ":" ++ field.2) ++ "\x7d"

example : string "a\"\x01" = "\"a\\\"\\u0001\"" := by decide +kernel

/-- The delete in a whole run is copied, and the one behind it is escaped. -/
example : string "0123456789abcde\x7f\x7f" = "\"0123456789abcde\x7f\\u007f\"" := by
  decide +kernel

end PickleTrial.Json
