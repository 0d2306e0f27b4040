import Mathlib.Data.List.Forall2
import PickleTrial.Proofs.Encoding.Plans
import PickleTrial.Proofs.Graph.Packed
import PickleTrial.Proofs.Number.Widening

/-! The two forms of an array in a stream. Below protocol 3 its items are values of their own; from
there on its machine format tells how they are found in its bytes. Both are the same items. -/

namespace PickleTrial

inductive ArrayItem
  | integer (value : Int)
  | single (number : Binary32)
  | double (number : Binary64)
  | character (character : Char)
deriving DecidableEq

/-- How items lie in bytes, the lowest byte of each first. Signs are told by two's complement, and
characters by code points. -/
inductive MachineFormat
  | unsigned (width : Nat)
  | signed (width : Nat)
  | single
  | double
  | character
deriving DecidableEq

namespace MachineFormat

/-- The format with a number in streams. The numbers missing here put the highest byte first, or
are characters of 16 bits. -/
def ofNumber? : Nat → Option MachineFormat
  | 0 => some (.unsigned 1)
  | 1 => some (.signed 1)
  | 2 => some (.unsigned 2)
  | 4 => some (.signed 2)
  | 6 => some (.unsigned 4)
  | 8 => some (.signed 4)
  | 10 => some (.unsigned 8)
  | 12 => some (.signed 8)
  | 14 => some .single
  | 16 => some .double
  | 20 => some .character
  | _ => none

def width : MachineFormat → Nat
  | unsigned width | signed width => width
  | single | character => 4
  | double => 8

/-- The item whose bytes are a number. -/
def item? : MachineFormat → Nat → Option ArrayItem
  | unsigned _, word => some (.integer word)
  | signed width, word => some (.integer (BitVec.ofNat (8 * width) word).toInt)
  | single, word => some (.single ⟨BitVec.ofNat 32 word⟩)
  | double, word => some (.double ⟨BitVec.ofNat 64 word⟩)
  | character, word => (Char.ofCode? word).map .character

/-- The items in bytes that hold nothing else. -/
def items? (format : MachineFormat) (bytes : Bytes) : Option (List ArrayItem) :=
  (Bytes.words? format.width bytes).bind fun words => words.mapM format.item?

end MachineFormat

namespace TypedArray

def format : TypedArray → MachineFormat
  | text _ => .character
  | integers code _ => if code.signed then .signed code.width else .unsigned code.width
  | singles _ => .single
  | doubles _ => .double

def items : TypedArray → List ArrayItem
  | text characters => characters.toList.map .character
  | integers code words => words.map fun word => .integer (code.value word)
  | singles items => items.map .single
  | doubles items => items.map .double

private theorem ofNumber?_machineFormat (value : TypedArray) :
    MachineFormat.ofNumber? value.machineFormat = some value.format := by
  cases value with
  | integers code words => cases code <;> rfl
  | text | singles | doubles => rfl

private theorem width_format (value : TypedArray) : value.format.width = value.width := by
  cases value with
  | integers code words => cases code <;> rfl
  | text | singles | doubles => rfl

private theorem length_items (value : TypedArray) : value.items.length = value.length := by
  cases value <;> simp [items, length, String.length_toList]

private theorem item?_integers (code : IntegerCode) (word : BitVec (8 * code.width)) :
    (if code.signed then MachineFormat.signed code.width else .unsigned code.width).item?
      word.toNat = some (.integer (code.value word)) := by
  rw [IntegerCode.value]
  cases code.signed with
  | false => rfl
  | true =>
      rw [if_pos rfl, if_pos rfl, MachineFormat.item?, BitVec.ofNat_toNat, BitVec.setWidth_eq]

private theorem items?_packed (value : TypedArray) :
    value.format.items? value.packed = some value.items := by
  rw [MachineFormat.items?, width_format, words?_packed, Option.bind_some]
  cases value with
  | text characters =>
      refine mapM_map_eq_some (fun character => ?_) characters.toList
      rw [format, MachineFormat.item?, Char.ofCode?_toNat, Option.map_some]
  | integers code words => exact mapM_map_eq_some (item?_integers code) words
  | singles items =>
      refine mapM_map_eq_some (fun item => ?_) items
      rw [format, MachineFormat.item?, BitVec.ofNat_toNat, BitVec.setWidth_eq]
  | doubles items =>
      refine mapM_map_eq_some (fun item => ?_) items
      rw [format, MachineFormat.item?, BitVec.ofNat_toNat, BitVec.setWidth_eq]

end TypedArray

/-- What an item is written as by itself. A number of 32 bits is one of 64 bits there. -/
inductive Protocol.Lists (protocol : Protocol) : ArrayItem → List Step → Prop
  | integer (value : Int) : Lists protocol (.integer value) (protocol.int value)
  | single {number : Binary32} {wide : Binary64} (widened : number.IsWidened wide) :
      Lists protocol (.single number) (protocol.float wide)
  | double (number : Binary64) : Lists protocol (.double number) (protocol.float number)
  | character (character : Char) :
      Lists protocol (.character character) (protocol.freshText (String.singleton character))

private theorem Protocol.lists_arrayItems (protocol : Protocol) (value : TypedArray) :
    List.Forall₂ protocol.Lists value.items (protocol.arrayItems value) := by
  cases value <;>
    simp only [TypedArray.items, arrayItems, List.forall₂_map_left_iff,
      List.forall₂_map_right_iff, List.forall₂_same]
  · exact fun character _ => .character character
  · intro word _
    rw [itemOpcode_eq]
    exact .integer _
  · exact fun number _ => .single number.isWidened_widen
  · exact fun number _ => .double number

/-- Both forms of an array are one letter and the same items. -/
structure TypedArray.WritesItems (value : TypedArray) (format : MachineFormat)
    (items : List ArrayItem) : Prop where
  length : items.length = value.length
  size : value.packed.length = value.length * format.width
  named : MachineFormat.ofNumber? value.machineFormat = some format
  packed : format.items? value.packed = some items
  listed : ∀ protocol : Protocol, List.Forall₂ protocol.Lists items (protocol.arrayItems value)
  older : ∀ protocol : Protocol, protocol.version < 3 → ∀ id : NodeId,
    protocol.plan id (.array value) =
      .ok (protocol.call .array
        [protocol.freshText (String.singleton value.letter),
          protocol.list (protocol.arrayItems value) none] (some (.node id)))
  newer : ∀ protocol : Protocol, 3 ≤ protocol.version → ∀ id : NodeId,
    protocol.plan id (.array value) =
      .ok (protocol.call .restoreArray
        [[.callable .array], protocol.freshText (String.singleton value.letter),
          protocol.int value.machineFormat, protocol.bytes value.packed none] (some (.node id)))

theorem TypedArray.writesItems (value : TypedArray) :
    value.WritesItems value.format value.items where
  length := value.length_items
  size := by rw [length_packed, width_format]
  named := value.ofNumber?_machineFormat
  packed := value.items?_packed
  listed protocol := protocol.lists_arrayItems value
  older protocol old id := by
    rw [Protocol.plan, Protocol.array_eq_call, if_neg (Nat.not_le.2 old)]
  newer protocol new id := by rw [Protocol.plan, Protocol.array_eq_call, if_pos new]

/-- The largest integer of 64 bits without a sign. -/
example : (TypedArray.integers .Q [0xffffffffffffffff]).items =
    [.integer 18446744073709551615] := by decide

end PickleTrial
