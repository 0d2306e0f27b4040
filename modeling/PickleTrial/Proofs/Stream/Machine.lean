import PickleTrial.Proofs.Encoding.Delivery
import PickleTrial.Proofs.Graph.Packed
import PickleTrial.Proofs.Number.TwosComplement

/-! The machine that reads streams. It has a stack of values and marks, a memo of values by slot,
and a heap of objects. Scalars are values of their own; everything that can be told apart from an
equal other one is an object at a place of the heap, and the value is the place. -/

namespace PickleTrial

namespace Machine

/-- A place of the heap. -/
abbrev Address := Nat

inductive Value
  | none
  | bool (value : Bool)
  | int (value : Int)
  | float (value : Binary64)
  | emptyTuple
  | callable (callable : Callable)
  | object (address : Address)
deriving DecidableEq

inductive Object
  | text (content : String)
  | bytes (content : Bytes)
  | byteArray (content : Bytes)
  | complex (re im : Binary64)
  /-- A date with a time, by its packed bytes. -/
  | moment (state : Bytes)
  | date (state : Bytes)
  | time (state : Bytes)
  | duration (days seconds microseconds : Int)
  /-- A decimal number, by its text. -/
  | decimal (text : String)
  | array (value : TypedArray)
  | tuple (items : List Value)
  | list (items : List Value)
  | set (items : List Value)
  | dict (entries : List (Value × Value))
deriving DecidableEq

/-- What stands at a place of the stack. -/
inductive Entry
  | mark
  | value (value : Value)
deriving DecidableEq

/-- Keys and values in turn, as entries. -/
def pairs? : List Value → Option (List (Value × Value))
  | [] => some []
  | key :: value :: rest => (pairs? rest).map ((key, value) :: ·)
  | [_] => none

/-- The values above the topmost mark, lowest first, and the stack below it. -/
def takeToMark? : List Entry → Option (List Value × List Entry)
  | [] => none
  | .mark :: below => some ([], below)
  | .value value :: below =>
      (takeToMark? below).map fun found => (found.1 ++ [value], found.2)

def takeValues? : (count : Nat) → List Entry → Option (List Value × List Entry)
  | 0, stack => some ([], stack)
  | count + 1, .value value :: below =>
      (takeValues? count below).map fun found => (found.1 ++ [value], found.2)
  | _, _ => none

namespace Object

/-! ## Objects filled in place -/

def append? : Object → List Value → Option Object
  | .list items, values => some (.list (items ++ values))
  | _, _ => none

def addItems? : Object → List Value → Option Object
  | .set items, values => some (.set (items ++ values))
  | _, _ => none

def setItems? : Object → List Value → Option Object
  | .dict entries, values => (pairs? values).map fun added => .dict (entries ++ added)
  | _, _ => none

/-! ## What objects hold -/

def text? : Object → Option String
  | .text content => some content
  | _ => none

def bytes? : Object → Option Bytes
  | .bytes content => some content
  | _ => none

def list? : Object → Option (List Value)
  | .list items => some items
  | _ => none

def tuple? : Object → Option (List Value)
  | .tuple items => some items
  | _ => none

end Object

def object? (heap : List Object) : Value → Option Object
  | .object address => heap[address]?
  | _ => none

def textOf? (heap : List Object) (value : Value) : Option String :=
  (object? heap value).bind Object.text?

def bytesOf? (heap : List Object) (value : Value) : Option Bytes :=
  (object? heap value).bind Object.bytes?

def listOf? (heap : List Object) (value : Value) : Option (List Value) :=
  (object? heap value).bind Object.list?

/-! ## Calls -/

def characterOf? (heap : List Object) (value : Value) : Option Char :=
  match (textOf? heap value).map String.toList with
  | some [character] => some character
  | _ => none

def intOf? : Value → Option Int
  | .int value => some value
  | _ => none

def floatOf? : Value → Option Binary64
  | .float value => some value
  | _ => none

/-- An array with a letter, of items that each fit its type. -/
def arrayOf? (heap : List Object) (letter : Char) (items : List Value) : Option TypedArray :=
  if letter = 'u' then
    (items.mapM (characterOf? heap)).map fun characters => .text (String.ofList characters)
  else if letter = 'f' then
    (items.mapM fun item => (floatOf? item).bind Binary32.ofWide?).map .singles
  else if letter = 'd' then (items.mapM floatOf?).map .doubles
  else
    (IntegerCode.ofLetter? letter).bind fun code =>
      (items.mapM fun item => (intOf? item).bind code.word?).map (.integers code)

def latin1? (text : List Char) : Option Bytes :=
  if text.all fun character => character.toNat < 256 then some (LineEscaped.ascii text) else none

/-- The packed state of a date or time, of the length it has to have. -/
def stateOf? (heap : List Object) (length : Nat) (value : Value) : Option Bytes :=
  (bytesOf? heap value).filter fun state => state.length = length

/-- The object that a call with arguments gives. -/
def call? (heap : List Object) : Callable → List Value → Option Object
  | .bytes, [] => some (.bytes [])
  | .byteArray, [] => some (.byteArray [])
  | .byteArray, [content] => (bytesOf? heap content).map .byteArray
  | .encodeText, [content, encoding] =>
      if textOf? heap encoding = some "latin1" then
        (textOf? heap content).bind fun text => (latin1? text.toList).map .bytes
      else none
  | .complex, [.float re, .float im] => some (.complex re im)
  | .set, [items] => (listOf? heap items).map .set
  | .moment, [state] => (stateOf? heap 10 state).map .moment
  | .date, [state] => (stateOf? heap 4 state).map .date
  | .time, [state] => (stateOf? heap 6 state).map .time
  | .duration, [.int days, .int seconds, .int microseconds] =>
      some (.duration days seconds microseconds)
  | .decimal, [text] => (textOf? heap text).map .decimal
  | .array, [letter, items] =>
      (characterOf? heap letter).bind fun letter =>
        (listOf? heap items).bind fun items => (arrayOf? heap letter items).map .array
  | .restoreArray, [.callable .array, letter, .int format, payload] =>
      (characterOf? heap letter).bind fun letter =>
        (bytesOf? heap payload).bind fun payload =>
          (TypedArray.ofPacked? letter format payload).map .array
  | _, _ => none

theorem call?_encodeText {heap : List Object} {content encoding : Value} {text : String}
    {payload : Bytes} (found : textOf? heap content = some text)
    (named : textOf? heap encoding = some "latin1") (encoded : latin1? text.toList = some payload) :
    call? heap .encodeText [content, encoding] = some (.bytes payload) := by
  rw [call?, if_pos named, found, Option.bind_some, encoded]
  rfl

/-- The callable with these names. Modules are known by their old names too. -/
def callable? (module name : String) : Option Callable :=
  [Callable.bytes, .byteArray, .complex, .set, .moment, .date, .time, .duration, .decimal, .array,
    .encodeText, .restoreArray].find? fun callable =>
      (module = callable.module ∨ module = callable.oldModule) ∧ name = callable.name

/-! ## Opcodes without operands on the stack -/

/-- The integer in a line; a truth value is written as one with a zero in front. -/
def lineValue? (line : List Char) : Option Value :=
  if line = ['0', '0'] then some (.bool false)
  else if line = ['0', '1'] then some (.bool true)
  else (Integer.ofLiteral? line).map .int

/-- The integer in a line with a letter at its end. -/
def longValue? (line : List Char) : Option Value :=
  if line.getLast? = some 'L' then (Integer.ofLiteral? line.dropLast).map .int else none

def scalar? : Opcode → Option Value
  | .none => some .none
  | .newTrue => some (.bool true)
  | .newFalse => some (.bool false)
  | .int line => lineValue? (Quoted.latin1 line)
  | .binInt value => some (.int value.toInt)
  | .binInt1 value => some (.int value.toNat)
  | .binInt2 value => some (.int value.toNat)
  | .long line => longValue? (Quoted.latin1 line)
  | .long1 payload | .long4 payload => some (.int (Integer.ofTwosComplement payload))
  | .float line => (FloatText.read? (Quoted.latin1 line)).map .float
  | .binFloat value => some (.float value)
  | .emptyTuple => some .emptyTuple
  | .global module name =>
      (callable? (String.ofList (Quoted.latin1 module)) (String.ofList (Quoted.latin1 name))).map
        .callable
  | _ => none

def created? : Opcode → Option Object
  | .unicode line =>
      (LineEscaped.decode? (Quoted.latin1 line)).map fun text => .text (String.ofList text)
  | .shortBinUnicode content | .binUnicode content | .binUnicode8 content => some (.text content)
  | .shortBinBytes payload | .binBytes payload | .binBytes8 payload => some (.bytes payload)
  | .byteArray8 payload => some (.byteArray payload)
  | .emptyList => some (.list [])
  | .emptyDict => some (.dict [])
  | .emptySet => some (.set [])
  | _ => none

end Machine

structure Machine where
  stack : List Machine.Entry := []
  memo : Std.TreeMap Nat Machine.Value := {}
  heap : List Machine.Object := []

namespace Machine

def push (machine : Machine) (value : Value) : Machine :=
  { machine with stack := .value value :: machine.stack }

def create (machine : Machine) (object : Object) : Machine :=
  { machine with
    stack := .value (.object machine.heap.length) :: machine.stack
    heap := machine.heap ++ [object] }

def collect? (machine : Machine) (make? : List Value → Option Object)
    (taken : Option (List Value × List Entry)) : Option Machine :=
  taken.bind fun found => (make? found.1).map ({ machine with stack := found.2 }).create

/-- Make a tuple of values taken from the stack; there is only one empty tuple. -/
def tuple? (machine : Machine) (taken : Option (List Value × List Entry)) : Option Machine :=
  taken.map fun found =>
    let machine := { machine with stack := found.2 }
    if found.1.isEmpty then machine.push .emptyTuple else machine.create (.tuple found.1)

def extend? (machine : Machine) (add? : Object → List Value → Option Object)
    (taken : Option (List Value × List Entry)) : Option Machine :=
  match taken with
  | some (values, .value (.object address) :: below) =>
      (machine.heap[address]?).bind fun object =>
        (add? object values).map fun object =>
          { machine with
            stack := .value (.object address) :: below
            heap := machine.heap.set address object }
  | _ => none

def store? (machine : Machine) (slot : Nat) : Option Machine :=
  match machine.stack with
  | .value value :: _ => some { machine with memo := machine.memo.insert slot value }
  | _ => none

def fetch? (machine : Machine) (slot : Nat) : Option Machine :=
  (machine.memo[slot]?).map machine.push

def argumentsOf? (heap : List Object) : Value → Option (List Value)
  | .emptyTuple => some []
  | value => (object? heap value).bind Object.tuple?

/-- Replace a callable and its arguments by the object that the call gives. -/
def reduce? (machine : Machine) : Option Machine :=
  match machine.stack with
  | .value arguments :: .value (.callable callable) :: below =>
      (argumentsOf? machine.heap arguments).bind fun arguments =>
        (call? machine.heap callable arguments).map ({ machine with stack := below }).create
  | _ => none

def name? (machine : Machine) : Option Machine :=
  match machine.stack with
  | .value name :: .value module :: below =>
      (textOf? machine.heap module).bind fun module =>
        (textOf? machine.heap name).bind fun name =>
          (callable? module name).map fun callable =>
            ({ machine with stack := below }).push (.callable callable)
  | _ => none

def operate? (machine : Machine) : Opcode → Option Machine
  | .proto _ | .frame _ => some machine
  | .mark => some { machine with stack := .mark :: machine.stack }
  | .pop =>
      match machine.stack with
      | _ :: below => some { machine with stack := below }
      | [] => none
  | .popMark => (takeToMark? machine.stack).map fun found => { machine with stack := found.2 }
  | .tuple1 => machine.tuple? (takeValues? 1 machine.stack)
  | .tuple2 => machine.tuple? (takeValues? 2 machine.stack)
  | .tuple3 => machine.tuple? (takeValues? 3 machine.stack)
  | .tuple => machine.tuple? (takeToMark? machine.stack)
  | .list => machine.collect? (fun values => some (.list values)) (takeToMark? machine.stack)
  | .dict =>
      machine.collect? (fun values => (pairs? values).map .dict) (takeToMark? machine.stack)
  | .append => machine.extend? Object.append? (takeValues? 1 machine.stack)
  | .appends => machine.extend? Object.append? (takeToMark? machine.stack)
  | .setItem => machine.extend? Object.setItems? (takeValues? 2 machine.stack)
  | .setItems => machine.extend? Object.setItems? (takeToMark? machine.stack)
  | .addItems => machine.extend? Object.addItems? (takeToMark? machine.stack)
  | .stackGlobal => machine.name?
  | .reduce => machine.reduce?
  | .memoize => machine.store? machine.memo.size
  | _ => none

/-- What an opcode does: it gives a slot, fetches, pushes a scalar, creates an object, or works on
what there is. -/
def step? (machine : Machine) (opcode : Opcode) : Option Machine :=
  match opcode.putSlot?, opcode.getSlot?, scalar? opcode, created? opcode with
  | some slot, _, _, _ => machine.store? slot
  | _, some slot, _, _ => machine.fetch? slot
  | _, _, some value, _ => some (machine.push value)
  | _, _, _, some object => some (machine.create object)
  | none, none, none, none => machine.operate? opcode

def run? (opcodes : List Opcode) (machine : Machine) : Option Machine :=
  opcodes.foldlM step? machine

/-- The value that bytes stand for, with the heap it lies in: what is left alone on the stack where
the stop, and nothing behind it, is reached. -/
def load? (bytes : Bytes) : Option (Value × List Object) :=
  match Stream.read? bytes with
  | some (opcodes, []) =>
      if opcodes.getLast? = some .stop then
        match run? opcodes.dropLast {} with
        | some ⟨[.value value], _, heap⟩ => some (value, heap)
        | _ => none
      else none
  | _ => none

/-- A list within itself. -/
example : load? [0x80, 0x02, 0x5d, 0x71, 0x00, 0x68, 0x00, 0x61, 0x2e] =
    some (.object 0, [.list [.object 0]]) := by decide +kernel

/-! ## What opcodes do -/

variable {opcode : Opcode}

theorem step?_scalar {value : Value} (found : scalar? opcode = some value) (machine : Machine) :
    machine.step? opcode = some (machine.push value) := by
  have apart : opcode.putSlot? = none ∧ opcode.getSlot? = none := by
    cases opcode with
    | put | binPut | longBinPut | get | binGet | longBinGet => cases found
    | _ => exact ⟨rfl, rfl⟩
  simp only [step?, apart, found]

theorem step?_created {object : Object} (found : created? opcode = some object)
    (machine : Machine) : machine.step? opcode = some (machine.create object) := by
  have apart : opcode.putSlot? = none ∧ opcode.getSlot? = none ∧ scalar? opcode = none := by
    cases opcode with
    | unicode | shortBinUnicode | binUnicode | binUnicode8 | shortBinBytes | binBytes | binBytes8
    | byteArray8 | emptyList | emptyDict | emptySet => exact ⟨rfl, rfl, rfl⟩
    | _ => cases found
  simp only [step?, apart, found]

theorem step?_putSlot? {slot : Nat} (named : opcode.putSlot? = some slot) (machine : Machine) :
    machine.step? opcode = machine.store? slot := by
  simp only [step?, named]

theorem step?_getSlot? {slot : Nat} (named : opcode.getSlot? = some slot) (machine : Machine) :
    machine.step? opcode = machine.fetch? slot := by
  have apart : opcode.putSlot? = none := by
    cases opcode with
    | put | binPut | longBinPut => cases named
    | _ => rfl
  simp only [step?, apart, named]

theorem run?_append (first second : List Opcode) (machine : Machine) :
    run? (first ++ second) machine = (run? first machine).bind (run? second) := by
  rw [run?, List.foldlM_append]
  rfl

theorem run?_concat (opcodes : List Opcode) (opcode : Opcode) (machine : Machine) :
    run? (opcodes ++ [opcode]) machine = (run? opcodes machine).bind (step? · opcode) := by
  rw [run?_append]
  exact Option.bind_congr fun machine _ => List.foldlM_cons.trans (bind_pure _)

/-! ## Values on the stack -/

def pushAll (values : List Value) (stack : List Entry) : List Entry :=
  values.foldl (fun stack value => .value value :: stack) stack

theorem pushAll_append (first second : List Value) (stack : List Entry) :
    pushAll (first ++ second) stack = pushAll second (pushAll first stack) :=
  List.foldl_append

theorem takeValues?_pushAll (values : List Value) (stack : List Entry) :
    takeValues? values.length (pushAll values stack) = some (values, stack) := by
  induction values using List.reverseRecOn generalizing stack with
  | nil => rfl
  | append_singleton values last induction =>
      rw [pushAll_append, List.length_append]
      change (takeValues? values.length (pushAll values stack)).map _ = _
      rw [induction]
      rfl

theorem takeToMark?_pushAll (values : List Value) (stack : List Entry) :
    takeToMark? (pushAll values (.mark :: stack)) = some (values, stack) := by
  induction values using List.reverseRecOn with
  | nil => rfl
  | append_singleton values last induction =>
      rw [pushAll_append]
      change (takeToMark? (pushAll values (.mark :: stack))).map _ = _
      rw [induction]
      rfl

end Machine

end PickleTrial
