import PickleTrial.Bytes
import PickleTrial.Text.Numeral

/-! Text in one line of bytes. Characters below 256 are the bytes of the same number; the others
are written as `\u` with four hexadecimal digits or `\U` with eight, and so are the few that
would end the line or begin such an escape. -/

namespace PickleTrial.LineEscaped

def ascii (text : List Char) : Bytes :=
  text.map fun character => UInt8.ofNat character.toNat

/-- Characters below 256 that may not stand for themselves: the backslash, and what a reader of
lines may take for an end. -/
def mustEscape (character : Char) : Bool :=
  character = '\\' || character = '\x00' || character = '\n' || character = '\r' ||
    character = '\x1a'

def escape (character : Char) : Bytes :=
  if mustEscape character ∨ (0x100 ≤ character.toNat ∧ character.toNat < 0x10000) then
    ascii ('\\' :: 'u' :: Numeral.hexadecimal 4 character.toNat)
  else if character.toNat < 0x100 then
    [UInt8.ofNat character.toNat]
  else
    ascii ('\\' :: 'U' :: Numeral.hexadecimal 8 character.toNat)

/-- A text as one line, without its end. -/
def encode (text : List Char) : Bytes :=
  text.flatMap escape

example : encode ['a', 'ÿ', '\\', '€'] =
    [0x61, 0xff] ++ ascii "\\u005c\\u20ac".toList := by decide +kernel

end PickleTrial.LineEscaped
