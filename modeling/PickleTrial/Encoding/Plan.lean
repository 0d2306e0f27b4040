import PickleTrial.Encoding.Error
import PickleTrial.Encoding.Memo
import PickleTrial.Number.Decimal
import PickleTrial.Number.FloatText
import PickleTrial.Number.SignedDigits
import PickleTrial.Stream.Opcode
import PickleTrial.Stream.Protocol
import PickleTrial.Text.LineEscaped
import PickleTrial.Text.Quoted

/-! The plan of a node's encoding: the steps that write it, in order. A plan depends on the node
and the protocol alone. What depends on the objects written before (whether something is in the
memo by then) is left open in a step, and so are the nodes within. -/

namespace PickleTrial

inductive Step
  /-- An object begins, so that a frame may end here. -/
  | split
  | op (opcode : Opcode)
  /-- The object just completed takes the next slot of the memo. -/
  | remember (key : Option MemoKey)
  /-- A string of which there is only one: fetched from the memo, or written and remembered. -/
  | sharedText (content : String)
  /-- Fetched from the memo, or written and remembered. -/
  | callable (callable : Callable)
  /-- The items of a tuple are complete. Writing them may have completed the tuple itself. -/
  | endTuple (id : NodeId) (count : Nat)
  /-- Fetched from the memo, or written by its own plan. -/
  | node (id : NodeId)
deriving DecidableEq

namespace Protocol

/-! ## Scalars -/

def boolOpcode (protocol : Protocol) (value : Bool) : Opcode :=
  if 2 ≤ protocol.version then (if value then .newTrue else .newFalse)
  else .int (LineEscaped.ascii (if value then ['0', '1'] else ['0', '0']))

/-- An integer by the bytes of its two's complement. -/
def payloadOpcode (payload : Bytes) : Opcode :=
  if payload.length ≤ 0xff then .long1 payload else .long4 payload

/-- An integer of 64 bits. -/
def wordOpcode (protocol : Protocol) (word : Int64) : Opcode :=
  let value := word.toInt
  let line := LineEscaped.ascii (Numeral.signedDecimal value)
  if Integer.FitsInt32 value then
    if protocol.version = 0 then .int line
    else if 0 ≤ value ∧ value ≤ 0xff then .binInt1 (BitVec.ofInt 8 value)
    else if 0 ≤ value ∧ value ≤ 0xffff then .binInt2 (BitVec.ofInt 16 value)
    else .binInt (BitVec.ofInt 32 value)
  else if 2 ≤ protocol.version then payloadOpcode (Integer.twosComplement64 word)
  else .long (line ++ LineEscaped.ascii ['L'])

/-- An integer beyond 64 bits, by its sign and its digits in base 256, or by its text. -/
def wideOpcode (protocol : Protocol) (negative : Bool) (magnitude : Bytes) (text : List Char) :
    Opcode :=
  if 2 ≤ protocol.version then payloadOpcode (Integer.shortestForm negative magnitude)
  else .long (LineEscaped.ascii (text ++ ['L']))

/-- An integer by its sign and digits. -/
def digitsOpcode (protocol : Protocol) (number : SignedDigits) : Opcode :=
  match number.toInt64? with
  | some word => protocol.wordOpcode word
  | none => protocol.wideOpcode number.negative number.magnitude number.text

/-- An integer of 64 bits without a sign. The upper half of these is beyond those with one. -/
def unsignedOpcode (protocol : Protocol) (word : BitVec 64) : Opcode :=
  if word.toNat < 0x8000000000000000 then protocol.wordOpcode (.ofNat word.toNat)
  else
    protocol.wideOpcode false (Bytes.littleEndian 8 word.toNat) (Numeral.decimal word.toNat)

/-- An integer of an array. -/
def itemOpcode (protocol : Protocol) : (code : IntegerCode) → BitVec (8 * code.width) → Opcode
  | .L, word | .Q, word => protocol.unsignedOpcode word
  | code, word => protocol.wordOpcode (.ofInt (code.value word))

def floatOpcode (protocol : Protocol) (value : Binary64) : Opcode :=
  if protocol.version = 0 then .float (LineEscaped.ascii (FloatText.text value))
  else .binFloat value

/-- A string without its memo slot. -/
def textOpcode (protocol : Protocol) (content : String) : Opcode :=
  if protocol.version = 0 then .unicode (LineEscaped.encode content.toList)
  else
    let length := content.utf8ByteSize
    if length ≤ 0xff ∧ 4 ≤ protocol.version then .shortBinUnicode content
    else if 0xffffffff < length ∧ 4 ≤ protocol.version then .binUnicode8 content
    else .binUnicode content

/-- A byte string without its memo slot, from protocol 3 on. -/
def bytesOpcode (protocol : Protocol) (payload : Bytes) : Opcode :=
  if payload.length ≤ 0xff then .shortBinBytes payload
  else if 0xffffffff < payload.length ∧ 4 ≤ protocol.version then .binBytes8 payload
  else .binBytes payload

/-! ## The memo -/

/-- The opcode that gives the object on top of the stack a slot. -/
def putOpcode (protocol : Protocol) (slot : Nat) : Opcode :=
  if 4 ≤ protocol.version then .memoize
  else if protocol.version = 0 then .put (LineEscaped.ascii (Numeral.decimal slot))
  else if slot ≤ 0xff then .binPut (BitVec.ofNat 8 slot)
  else .longBinPut (BitVec.ofNat 32 slot)

def getOpcode (protocol : Protocol) (slot : Nat) : Opcode :=
  if protocol.version = 0 then .get (LineEscaped.ascii (Numeral.decimal slot))
  else if slot ≤ 0xff then .binGet (BitVec.ofNat 8 slot)
  else .longBinGet (BitVec.ofNat 32 slot)

/-! ## Tuples -/

def emptyTuple (protocol : Protocol) : List Step :=
  if protocol.version = 0 then [.op .mark, .op .tuple] else [.op .emptyTuple]

/-- Whether a tuple of this length is made without a mark. -/
def isShortTuple (protocol : Protocol) (count : Nat) : Bool :=
  count ≤ 3 && 2 ≤ protocol.version

/-- The opcode that makes a tuple of the objects on top of the stack. -/
def tupleOpcode (protocol : Protocol) (count : Nat) : Opcode :=
  if protocol.isShortTuple count then
    match count with
    | 1 => .tuple1
    | 2 => .tuple2
    | _ => .tuple3
  else .tuple

/-- What drops the items of a tuple again, with their mark if there is one. -/
def dropOpcodes (protocol : Protocol) (count : Nat) : List Opcode :=
  if protocol.isShortTuple count then List.replicate count .pop
  else if protocol.version = 0 then List.replicate (count + 1) .pop
  else [.popMark]

def tupleItems (protocol : Protocol) (items : List (List Step)) : List Step :=
  (if protocol.isShortTuple items.length then [] else [.op .mark]) ++
    items.flatMap (Step.split :: ·)

/-- The tuple of arguments of a call, which nothing refers back to. -/
def arguments (protocol : Protocol) (items : List (List Step)) : List Step :=
  if items.isEmpty then protocol.emptyTuple
  else
    protocol.tupleItems items ++ [.op (protocol.tupleOpcode items.length), .remember none]

def call (protocol : Protocol) (callable : Callable) (items : List (List Step))
    (key : Option MemoKey) : List Step :=
  .callable callable :: protocol.arguments items ++ [.op .reduce, .remember key]

/-! ## Batches -/

/-- The most items or entries that one opcode adds. -/
def batchSize : Nat := 1000

/-- Items in batches, as many rounds at most. -/
def batchesWithin {α : Type} : (rounds : Nat) → List α → List (List α)
  | 0, _ => []
  | _, [] => []
  | rounds + 1, items => items.take batchSize :: batchesWithin rounds (items.drop batchSize)

/-- Items in batches, all full but possibly the last. -/
def batches {α : Type} (items : List α) : List (List α) :=
  batchesWithin items.length items

/-- Items added to the container below: one by one at protocol 0, and else in batches behind a
mark, which a batch of one does without where `single` allows. -/
def additions (protocol : Protocol) (single : Option Opcode) (several : Opcode)
    (items : List (List Step)) : List Step :=
  match protocol.version, single with
  | 0, some single => items.flatMap (· ++ [.op single])
  | _, single =>
      (batches items).flatMap fun batch =>
        match batch, single with
        | [item], some single => item ++ [.op single]
        | items, _ => .op .mark :: items.flatten ++ [.op several]

/-! ## Containers -/

def list (protocol : Protocol) (items : List (List Step)) (key : Option MemoKey) : List Step :=
  (if protocol.version = 0 then [.op .mark, .op .list] else [.op .emptyList]) ++
    [.remember key] ++
    protocol.additions (some .append) .appends (items.map (Step.split :: ·))

def dict (protocol : Protocol) (entries : List (NodeId × NodeId)) (key : Option MemoKey) :
    List Step :=
  (if protocol.version = 0 then [.op .mark, .op .dict] else [.op .emptyDict]) ++
    [.remember key] ++
    protocol.additions (some .setItem) .setItems
      (entries.map fun entry => [.node entry.1, .node entry.2])

/-- A set, made of a list below protocol 4. -/
def set (protocol : Protocol) (items : List NodeId) (key : Option MemoKey) : List Step :=
  if 4 ≤ protocol.version then
    [.op .emptySet, .remember key] ++
      protocol.additions none .addItems (items.map fun item => [.node item])
  else
    protocol.call .set [protocol.list (items.map fun item => [.node item]) none] key

/-! ## Values made by calls -/

def freshText (protocol : Protocol) (content : String) : List Step :=
  [.op (protocol.textOpcode content), .remember none]

/-- A byte string. Below protocol 3 a text is encoded whose characters are the bytes. -/
def bytes (protocol : Protocol) (payload : Bytes) (key : Option MemoKey) : List Step :=
  if 3 ≤ protocol.version then [.op (protocol.bytesOpcode payload), .remember key]
  else if payload.isEmpty then protocol.call .bytes [] key
  else
    protocol.call .encodeText
      [protocol.freshText (String.ofList (Quoted.latin1 payload)), [.sharedText "latin1"]] key

def byteArray (protocol : Protocol) (payload : Bytes) (key : Option MemoKey) : List Step :=
  if 5 ≤ protocol.version then [.op (.byteArray8 payload), .remember key]
  else
    protocol.call .byteArray (if payload.isEmpty then [] else [protocol.bytes payload none]) key

def word (protocol : Protocol) (word : Int64) : List Step :=
  [.op (protocol.wordOpcode word)]

def float (protocol : Protocol) (value : Binary64) : List Step :=
  [.op (protocol.floatOpcode value)]

/-- The items of an array, each as a value of its own. -/
def arrayItems (protocol : Protocol) : TypedArray → List (List Step)
  | .text characters =>
      characters.toList.map fun character => protocol.freshText (String.singleton character)
  | .integers code words => words.map fun word => [.op (protocol.itemOpcode code word)]
  | .singles items => items.map fun item => protocol.float item.widen
  | .doubles items => items.map protocol.float

/-- An array: its letter and a list of its items, or from protocol 3 on its letter, its machine
format and its packed bytes. -/
def array (protocol : Protocol) (value : TypedArray) (key : Option MemoKey) : List Step :=
  let letter := protocol.freshText (String.singleton value.letter)
  if 3 ≤ protocol.version then
    protocol.call .restoreArray
      [[.callable .array], letter, protocol.word (.ofNat value.machineFormat),
        protocol.bytes value.packed none] key
  else
    protocol.call .array [letter, protocol.list (protocol.arrayItems value) none] key

def duration (protocol : Protocol) (parts : Duration.Parts) (key : Option MemoKey) :
    List Step :=
  protocol.call .duration
    [protocol.word (.ofInt parts.days), protocol.word (.ofNat parts.seconds),
      protocol.word (.ofNat parts.microseconds)] key

/-! ## Nodes -/

def plan (protocol : Protocol) (id : NodeId) : Node → Except EncodeError (List Step)
  | .none => .ok [.op .none]
  | .bool value => .ok [.op (protocol.boolOpcode value)]
  | .int value => .ok (protocol.word value)
  | .bigInt literal =>
      match SignedDigits.ofLiteral? literal.toList with
      | some number => .ok [.op (protocol.digitsOpcode number)]
      | none => .error (.invalidInteger literal)
  | .float value => .ok (protocol.float value)
  | .text value => .ok [.op (protocol.textOpcode value), .remember (some (.node id))]
  | .bytes value => .ok (protocol.bytes value (some (.node id)))
  | .byteArray value => .ok (protocol.byteArray value (some (.node id)))
  | .complex re im =>
      .ok (protocol.call .complex [protocol.float re, protocol.float im] (some (.node id)))
  | .moment value =>
      .ok (protocol.call .moment [protocol.bytes value.packed none] (some (.node id)))
  | .date value =>
      .ok (protocol.call .date [protocol.bytes value.packed none] (some (.node id)))
  | .time value =>
      .ok (protocol.call .time [protocol.bytes value.packed none] (some (.node id)))
  | .duration value =>
      match value.microseconds? with
      | some count => .ok (protocol.duration (Duration.parts count) (some (.node id)))
      | none => .error .durationOutOfRange
  | .decimal literal =>
      match Decimal.canonical? literal with
      | some text =>
          .ok (protocol.call .decimal [protocol.freshText text] (some (.node id)))
      | none => .error (.invalidDecimal literal)
  | .array value => .ok (protocol.array value (some (.node id)))
  | .tuple items =>
      if items.isEmpty then .ok protocol.emptyTuple
      else
        .ok (protocol.tupleItems (items.map fun item => [.node item]) ++
          [.endTuple id items.length])
  | .list items =>
      .ok (protocol.list (items.map fun item => [.node item]) (some (.node id)))
  | .set items => .ok (protocol.set items (some (.node id)))
  | .dict entries => .ok (protocol.dict entries (some (.node id)))

end Protocol

end PickleTrial
