import PickleTrial.Graph.Calendar
import PickleTrial.Graph.TypedArray

/-! Values as a graph. Every value is a node, and containers hold the positions of their items
rather than the items, so one value can stand in many places, and inside itself. -/

namespace PickleTrial

abbrev NodeId := Nat

inductive Node
  | none
  | bool (value : Bool)
  /-- An integer of 64 bits. -/
  | int (value : Int64)
  /-- An integer of any size, by its literal. The literal is checked when it is encoded. -/
  | bigInt (literal : String)
  | float (value : Binary64)
  | text (value : String)
  | bytes (value : Bytes)
  | byteArray (value : Bytes)
  | complex (re im : Binary64)
  | moment (value : Moment)
  | date (value : Date)
  | time (value : Time)
  | duration (value : Duration)
  /-- A decimal number, by its literal. The literal is checked when it is encoded. -/
  | decimal (literal : String)
  | array (value : TypedArray)
  | tuple (items : List NodeId)
  | list (items : List NodeId)
  /-- The items in the order in which a stream writes them. -/
  | set (items : List NodeId)
  /-- Keys with their values, in the order in which a stream writes them. -/
  | dict (entries : List (NodeId × NodeId))
deriving DecidableEq

def Node.children : Node → List NodeId
  | .tuple items | .list items | .set items => items
  | .dict entries => entries.flatMap fun entry => [entry.1, entry.2]
  | _ => []

/-- The nodes allocated so far. A node may refer to positions that hold nothing (yet). -/
structure Graph where
  nodes : Array Node := #[]
deriving DecidableEq

namespace Graph

def size (graph : Graph) : Nat :=
  graph.nodes.size

def node? (graph : Graph) (id : NodeId) : Option Node :=
  graph.nodes[id]?

/-- Allocate a node behind those there are. -/
def add (graph : Graph) (node : Node) : NodeId × Graph :=
  (graph.size, ⟨graph.nodes.push node⟩)

/-- Put an item at the end of the list at a position, if there is a list. -/
def append? (graph : Graph) (list item : NodeId) : Option Graph :=
  match graph.node? list with
  | some (.list items) => some ⟨graph.nodes.setIfInBounds list (.list (items ++ [item]))⟩
  | _ => none

/-- Replace one item of the list at a position, if there is a list with that item. -/
def replace? (graph : Graph) (list index item : Nat) : Option Graph :=
  match graph.node? list with
  | some (.list items) =>
      if index < items.length then
        some ⟨graph.nodes.setIfInBounds list (.list (items.set index item))⟩
      else none
  | _ => none

@[simp] theorem size_add (graph : Graph) (node : Node) :
    (graph.add node).2.size = graph.size + 1 := by
  simp [add, size]

theorem node?_add (graph : Graph) (node : Node) (id : NodeId) :
    (graph.add node).2.node? id =
      if id = graph.size then some node else graph.node? id := by
  simp only [add, node?, size, Array.getElem?_push]
  rfl

end Graph

abbrev GraphBuilder := StateM Graph

namespace GraphBuilder

def add (node : Node) : GraphBuilder NodeId :=
  fun graph => graph.add node

/-- The value that a construction leaves, and the graph around it. -/
def build (construction : GraphBuilder NodeId) : NodeId × Graph :=
  construction.run {}

end GraphBuilder

end PickleTrial
