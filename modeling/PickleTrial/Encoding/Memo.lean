import PickleTrial.Graph.Basic
import PickleTrial.Stream.Callable
import Std.Data.TreeMap

/-! The memo of an encoding: which slot holds which object. Slots are taken one after the other.
Objects that exist only while a value is taken apart take a slot too, but have no key by which
they could be found again. -/

namespace PickleTrial

/-- What makes an object the same one when it is met again. -/
inductive MemoKey
  | node (id : NodeId)
  | callable (callable : Callable)
  /-- A string of which there is only one, by its content. -/
  | text (content : String)
deriving DecidableEq

structure Memo where
  /-- The key of each slot taken so far, in order. -/
  slots : Array (Option MemoKey) := #[]
  /-- The latest slot of each node that has one. -/
  nodes : Std.TreeMap Nat Nat := {}
  shared : List (MemoKey × Nat) := []

namespace Memo

/-- The latest slot that was taken with a key. -/
def find? (memo : Memo) : MemoKey → Option Nat
  | .node id => memo.nodes[id]?
  | key => memo.shared.lookup key

def next (memo : Memo) : Nat :=
  memo.slots.size

def take (memo : Memo) (key : Option MemoKey) : Memo :=
  let memo := { memo with slots := memo.slots.push key }
  match key with
  | none => memo
  | some (.node id) => { memo with nodes := memo.nodes.insert id (memo.slots.size - 1) }
  | some key => { memo with shared := (key, memo.slots.size - 1) :: memo.shared }

end Memo

end PickleTrial
