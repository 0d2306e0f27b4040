import PickleTrial.Number.Binary
import PickleTrial.Number.Integer
import PickleTrial.Text.Utf8

/-! The opcodes of the stream format with their arguments, and their bytes. An argument is a
machine word, a counted run of bytes, a counted text, or a line of text without its end. -/

namespace PickleTrial

inductive Opcode
  -- Around the value.
  | proto (version : Nat)
  | frame (length : Nat)
  | stop
  -- The stack.
  | mark
  | pop
  | popMark
  -- Scalars.
  | none
  | newTrue
  | newFalse
  | int (line : Bytes)
  | binInt (value : BitVec 32)
  | binInt1 (value : BitVec 8)
  | binInt2 (value : BitVec 16)
  | long (line : Bytes)
  | long1 (payload : Bytes)
  | long4 (payload : Bytes)
  | float (line : Bytes)
  | binFloat (value : Binary64)
  | unicode (line : Bytes)
  | shortBinUnicode (content : String)
  | binUnicode (content : String)
  | binUnicode8 (content : String)
  | shortBinBytes (payload : Bytes)
  | binBytes (payload : Bytes)
  | binBytes8 (payload : Bytes)
  | byteArray8 (payload : Bytes)
  -- Containers.
  | emptyTuple
  | tuple1
  | tuple2
  | tuple3
  | tuple
  | emptyList
  | list
  | append
  | appends
  | emptyDict
  | dict
  | setItem
  | setItems
  | emptySet
  | addItems
  -- Callables.
  | global (module name : Bytes)
  | stackGlobal
  | reduce
  -- The memo.
  | put (line : Bytes)
  | binPut (slot : BitVec 8)
  | longBinPut (slot : BitVec 32)
  | memoize
  | get (line : Bytes)
  | binGet (slot : BitVec 8)
  | longBinGet (slot : BitVec 32)
deriving DecidableEq

namespace Opcode

/-- The byte that names the opcode. -/
def code : Opcode → UInt8
  | proto _ => 0x80
  | frame _ => 0x95
  | stop => 0x2e
  | mark => 0x28
  | pop => 0x30
  | popMark => 0x31
  | none => 0x4e
  | newTrue => 0x88
  | newFalse => 0x89
  | int _ => 0x49
  | binInt _ => 0x4a
  | binInt1 _ => 0x4b
  | binInt2 _ => 0x4d
  | long _ => 0x4c
  | long1 _ => 0x8a
  | long4 _ => 0x8b
  | float _ => 0x46
  | binFloat _ => 0x47
  | unicode _ => 0x56
  | shortBinUnicode _ => 0x8c
  | binUnicode _ => 0x58
  | binUnicode8 _ => 0x8d
  | shortBinBytes _ => 0x43
  | binBytes _ => 0x42
  | binBytes8 _ => 0x8e
  | byteArray8 _ => 0x96
  | emptyTuple => 0x29
  | tuple1 => 0x85
  | tuple2 => 0x86
  | tuple3 => 0x87
  | tuple => 0x74
  | emptyList => 0x5d
  | list => 0x6c
  | append => 0x61
  | appends => 0x65
  | emptyDict => 0x7d
  | dict => 0x64
  | setItem => 0x73
  | setItems => 0x75
  | emptySet => 0x8f
  | addItems => 0x90
  | global _ _ => 0x63
  | stackGlobal => 0x93
  | reduce => 0x52
  | put _ => 0x70
  | binPut _ => 0x71
  | longBinPut _ => 0x72
  | memoize => 0x94
  | get _ => 0x67
  | binGet _ => 0x68
  | longBinGet _ => 0x6a

def lineBytes (line : Bytes) : Bytes :=
  line ++ [0x0a]

def counted (width : Nat) (payload : Bytes) : Bytes :=
  Bytes.littleEndian width payload.length ++ payload

/-- The bytes behind the one that names the opcode. -/
def arguments : Opcode → Bytes
  | proto version => [UInt8.ofNat version]
  | frame length => Bytes.littleEndian 8 length
  | int line | long line | float line | unicode line | put line | get line => lineBytes line
  | global module name => lineBytes module ++ lineBytes name
  | binInt value => Bytes.littleEndian 4 value.toNat
  | binInt1 value => Bytes.littleEndian 1 value.toNat
  | binInt2 value => Bytes.littleEndian 2 value.toNat
  | binFloat value => Bytes.bigEndian 8 value.bits.toNat
  | long1 payload | shortBinBytes payload => counted 1 payload
  | long4 payload | binBytes payload => counted 4 payload
  | binBytes8 payload | byteArray8 payload => counted 8 payload
  | shortBinUnicode content => counted 1 (Utf8.encode content)
  | binUnicode content => counted 4 (Utf8.encode content)
  | binUnicode8 content => counted 8 (Utf8.encode content)
  | binPut slot | binGet slot => Bytes.littleEndian 1 slot.toNat
  | longBinPut slot | longBinGet slot => Bytes.littleEndian 4 slot.toNat
  | _ => []

def bytes (opcode : Opcode) : Bytes :=
  opcode.code :: opcode.arguments

example : bytes (binInt (-2)) = [0x4a, 0xfe, 0xff, 0xff, 0xff] := by decide

/-- The number of the bytes. For a text it is told without encoding the text. -/
def size : Opcode → Nat
  | shortBinUnicode content => 2 + content.utf8ByteSize
  | binUnicode content => 5 + content.utf8ByteSize
  | binUnicode8 content => 9 + content.utf8ByteSize
  | opcode => opcode.bytes.length

theorem length_bytes (opcode : Opcode) : opcode.bytes.length = opcode.size := by
  cases opcode with
  | shortBinUnicode | binUnicode | binUnicode8 =>
      simp only [bytes, arguments, counted, List.length_cons, List.length_append,
        Bytes.length_littleEndian, Utf8.length_encode, size]
      omega
  | _ => rfl

end Opcode

end PickleTrial
