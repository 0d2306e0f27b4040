import PickleTrial.Graph.Basic

/-! Sets and dicts without repetitions. Scalars that count as one item or key have one key;
everything else has none, and is told apart by its position at most. -/

namespace PickleTrial

/-- What makes two scalars the same item of a set. -/
inductive ScalarKey
  | none
  | int (value : Int)
  | float (value : Binary64)
  | text (value : String)
  | bytes (value : Bytes)
deriving DecidableEq

namespace ScalarKey

/-- A float below nine quadrillion that stands for a whole number is the same item as that
integer; any other float is told apart by its bits. -/
def ofFloat (value : Binary64) : ScalarKey :=
  match value.toInt? with
  | some whole => if whole.natAbs < 9000000000000000 then .int whole else .float value
  | Option.none => .float value

/-- The key of a node. The literal of a large integer is compared as a text. -/
def ofNode? : Node → Option ScalarKey
  | .none => some .none
  | .bool value => some (.int (if value then 1 else 0))
  | .int value => some (.int value.toInt)
  | .bigInt literal => some (.text literal)
  | .float value => some (ofFloat value)
  | .text value => some (.text value)
  | .bytes value => some (.bytes value)
  | _ => Option.none

/-- `-0.0` is the integer zero. -/
example : ofFloat ⟨0x8000000000000000⟩ = .int 0 := by decide +kernel

end ScalarKey

namespace Graph

def key? (graph : Graph) (id : NodeId) : Option ScalarKey :=
  (graph.node? id).bind ScalarKey.ofNode?

/-! ## Sets -/

/-- The items whose key was not seen before. Items without a key all stay. -/
def unseen (graph : Graph) : (seen : List ScalarKey) → List NodeId → List NodeId
  | _, [] => []
  | seen, item :: rest =>
      match graph.key? item with
      | none => item :: graph.unseen seen rest
      | some key =>
          if key ∈ seen then graph.unseen seen rest else item :: graph.unseen (key :: seen) rest

/-- Allocate a set of the first item of each key, and of the items without a key. -/
def addSet (graph : Graph) (items : List NodeId) : NodeId × Graph :=
  graph.add (.set (graph.unseen [] items))

/-! ## Dicts -/

/-- Whether two positions are the same dict key: one position, or nodes of one key. -/
def sameKey (graph : Graph) (left right : NodeId) : Bool :=
  left = right || ((graph.key? right).isSome && graph.key? left = graph.key? right)

/-- Give a key its value. A key that is there keeps its place. -/
def assign (graph : Graph) (key value : NodeId) :
    List (NodeId × NodeId) → List (NodeId × NodeId)
  | [] => [(key, value)]
  | entry :: rest =>
      if graph.sameKey entry.1 key then (entry.1, value) :: rest
      else entry :: graph.assign key value rest

/-- The entries left when each is assigned in turn. -/
def assignAll (graph : Graph) (entries : List (NodeId × NodeId)) : List (NodeId × NodeId) :=
  entries.foldl (fun assigned entry => graph.assign entry.1 entry.2 assigned) []

/-- Allocate a dict in which a repeated key has its first place and its last value. -/
def addDict (graph : Graph) (entries : List (NodeId × NodeId)) : NodeId × Graph :=
  graph.add (.dict (graph.assignAll entries))

end Graph

namespace GraphBuilder

def addSet (items : List NodeId) : GraphBuilder NodeId :=
  fun graph => graph.addSet items

def addDict (entries : List (NodeId × NodeId)) : GraphBuilder NodeId :=
  fun graph => graph.addDict entries

/-- Put an item at the end of a list; anything else stays as it is. -/
def append (list item : NodeId) : GraphBuilder Unit :=
  modify fun graph => (graph.append? list item).getD graph

end GraphBuilder

end PickleTrial
