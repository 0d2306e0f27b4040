import PickleTrial.Bytes
import PickleTrial.Text.Numeral

/-! Quoted text, as value notation shows strings and byte strings: a quote, the body, and the same
quote. A backslash, the quote itself, line ends and tabs are written behind a backslash, and a
character that may not stand for itself is written as two hexadecimal digits. -/

namespace PickleTrial.Quoted

/-- The apostrophe quotes, unless the text holds one and holds no double quote. -/
def quoteFor (text : List Char) : Char :=
  if '\'' ∈ text ∧ '"' ∉ text then '"' else '\''

/-- One character of the body. -/
def escape (standsForItself : Char → Bool) (quote character : Char) : List Char :=
  if character = '\\' then ['\\', '\\']
  else if character = '\n' then ['\\', 'n']
  else if character = '\r' then ['\\', 'r']
  else if character = '\t' then ['\\', 't']
  else if character = quote then ['\\', quote]
  else if standsForItself character then [character]
  else '\\' :: 'x' :: Numeral.hexadecimal 2 character.toNat

def body (standsForItself : Char → Bool) (quote : Char) (text : List Char) : List Char :=
  text.flatMap (escape standsForItself quote)

def enclose (standsForItself : Char → Bool) (text : List Char) : List Char :=
  let quote := quoteFor text
  quote :: (body standsForItself quote text ++ [quote])

/-! ## Strings -/

/-- All but the control characters, which end below `0xa0`. -/
def isTextCharacter (character : Char) : Bool :=
  (0x20 ≤ character.toNat && character.toNat < 0x7f) || 0xa0 ≤ character.toNat

def text (value : String) : String :=
  String.ofList (enclose isTextCharacter value.toList)

example : text "it's" = "\"it's\"" := by decide +kernel

example : text "a\n\x7fé" = "'a\\n\\x7fé'" := by decide +kernel

/-! ## Byte strings -/

def isPrintableAscii (character : Char) : Bool :=
  0x20 ≤ character.toNat && character.toNat < 0x7f

/-- The characters that stand for bytes one by one. -/
def latin1 (bytes : Bytes) : List Char :=
  bytes.map fun byte => Char.ofNat byte.toNat

def bytes (value : Bytes) : String :=
  String.ofList (enclose isPrintableAscii (latin1 value))

example : bytes [0x61, 0x27, 0xff] = "\"a'\\xff\"" := by decide +kernel

end PickleTrial.Quoted
