import PickleTrial.Text.Numeral
import PickleTrial.Text.Unprintable

/-! Text as messages display it: between double quotes, on one line, with every character that
has no printable form written as its code point. -/

namespace PickleTrial.Displayed

def codePoint (character : Char) : List Char :=
  "\\u\x7b".toList ++ Nat.toDigits 16 character.toNat ++ ['\x7d']

/-- Whether a character stands for itself. -/
def isPrintable (character : Char) : Bool :=
  if character.toNat < 0x80 then 0x20 ≤ character.toNat && character.toNat < 0x7f
  else !Unprintable.contains character.toNat

def escape (character : Char) : List Char :=
  if character = '"' then ['\\', '"']
  else if character = '\\' then ['\\', '\\']
  else if character = '\n' then ['\\', 'n']
  else if character = '\r' then ['\\', 'r']
  else if character = '\t' then ['\\', 't']
  else if character = '\x00' then ['\\', '0']
  else if isPrintable character then [character]
  else codePoint character

def text (value : String) : String :=
  String.ofList ('"' :: (value.toList.flatMap escape ++ ['"']))

example : text "it's \"\x1b\u00a0\"" = "\"it's \\\"\\u\x7b1b\x7d\\u\x7ba0\x7d\\\"\"" := by
  decide +kernel

end PickleTrial.Displayed
