import PickleTrial.Number.Binary
import PickleTrial.Number.Integer

/-! Arrays whose items all have one machine type, named by a letter. -/

namespace PickleTrial

/-- The integer types of array items. A capital letter is the unsigned type of its pair, and the
two types of 64 bits have two names each. -/
inductive IntegerCode
  | b | B | h | H | i | I | l | L | q | Q
deriving DecidableEq

namespace IntegerCode

def letter : IntegerCode → Char
  | b => 'b' | B => 'B' | h => 'h' | H => 'H' | i => 'i'
  | I => 'I' | l => 'l' | L => 'L' | q => 'q' | Q => 'Q'

def width : IntegerCode → Nat
  | b | B => 1
  | h | H => 2
  | i | I => 4
  | l | L | q | Q => 8

def signed : IntegerCode → Bool
  | b | h | i | l | q => true
  | B | H | I | L | Q => false

/-- The number by which streams name the machine format, little-endian throughout. -/
def machineFormat : IntegerCode → Nat
  | B => 0 | b => 1 | H => 2 | h => 4 | I => 6 | i => 8
  | L | Q => 10
  | l | q => 12

/-- The integer in a machine word of this type. -/
def value (code : IntegerCode) (word : BitVec (8 * code.width)) : Int :=
  if code.signed then word.toInt else word.toNat

end IntegerCode

inductive TypedArray
  | text (characters : String)
  | integers (code : IntegerCode) (words : List (BitVec (8 * code.width)))
  | singles (items : List Binary32)
  | doubles (items : List Binary64)
deriving DecidableEq

namespace TypedArray

def letter : TypedArray → Char
  | text _ => 'u'
  | integers code _ => code.letter
  | singles _ => 'f'
  | doubles _ => 'd'

def machineFormat : TypedArray → Nat
  | text _ => 20
  | integers code _ => code.machineFormat
  | singles _ => 14
  | doubles _ => 16

/-- The bytes of one item; a character of a text is its code point. -/
def width : TypedArray → Nat
  | text _ => 4
  | integers code _ => code.width
  | singles _ => 4
  | doubles _ => 8

def length : TypedArray → Nat
  | text characters => characters.length
  | integers _ words => words.length
  | singles items => items.length
  | doubles items => items.length

/-- The items one behind the other, each with its lowest byte first. -/
def packed : TypedArray → Bytes
  | text characters =>
      characters.toList.flatMap fun character => Bytes.littleEndian 4 character.toNat
  | integers code words =>
      words.flatMap fun word => Bytes.littleEndian code.width word.toNat
  | singles items => items.flatMap fun item => Bytes.littleEndian 4 item.bits.toNat
  | doubles items => items.flatMap fun item => Bytes.littleEndian 8 item.bits.toNat

example : packed (.integers .h [-2]) = [0xfe, 0xff] := by decide

end TypedArray

end PickleTrial
