import PickleTrial.Proofs.Decoding.Values
import PickleTrial.Proofs.Encoding.Repetition

/-! Decoding undoes encoding. The machine reads a stream to its end and is left with one value, and
where no node was given two slots, the objects that the value is made of are the nodes reached from
the root: each node is one object, and each object is read as its node. -/

namespace PickleTrial

open Machine (Value Object)

namespace Graph

/-- A value in a heap is the part of a graph that is reached from a position. Each node has a place,
which is the scalar that the node is read as, or an object that is read as the node with its
children at their places; and only one node is at the place of an object. -/
structure Represented (graph : Graph) (protocol : Protocol) (root : NodeId) (value : Value)
    (heap : List Object) (place : NodeId → Value) : Prop where
  start : value = place root
  present : ∀ {id}, graph.Reaches root id → ∃ node, graph.node? id = some node
  scalars : ∀ {id node}, graph.Reaches root id → graph.node? id = some node →
    node.takesSlot = false → node.scalar? protocol = some (place id)
  objects : ∀ {id node}, graph.Reaches root id → graph.node? id = some node → node.takesSlot →
    ∃ address object, place id = .object address ∧ heap[address]? = some object ∧
      node.object? protocol (node.children.map place) = some object
  distinct : ∀ {first second firstNode secondNode}, graph.Reaches root first →
    graph.Reaches root second → graph.node? first = some firstNode →
    graph.node? second = some secondNode → firstNode.takesSlot → secondNode.takesSlot →
    place first = place second → first = second

end Graph

namespace Machine

private theorem run?_filter_isFrame (opcodes : List Opcode) (machine : Machine) :
    run? opcodes machine = run? (opcodes.filter (!Stream.isFrame ·)) machine := by
  induction opcodes generalizing machine with
  | nil => rfl
  | cons opcode rest induction =>
      cases frame : Stream.isFrame opcode with
      | true =>
          have stays : machine.step? opcode = some machine := by
            cases opcode with
            | frame => rfl
            | _ => cases frame
          rw [List.filter_cons_of_neg (by simp [frame]), ← induction, run?, List.foldlM_cons,
            stays]
          rfl
      | false =>
          rw [List.filter_cons_of_pos (by simp [frame]), run?, run?, List.foldlM_cons,
            List.foldlM_cons]
          exact Option.bind_congr fun machine _ => induction machine

end Machine

private theorem Stream.countP_stores_filter (opcodes : List Opcode) :
    (opcodes.filter (!isFrame ·)).countP Opcode.stores = opcodes.countP Opcode.stores := by
  have agrees (opcode : Opcode) : (opcode.stores && !isFrame opcode) = opcode.stores := by
    cases opcode with
    | frame => rfl
    | _ => exact Bool.and_true _
  rw [List.countP_filter]
  exact congrArg (List.countP · opcodes) (funext agrees)

namespace Stage

variable {graph : Graph} {protocol : Protocol} {root : NodeId} {bytes : Bytes} {trace : Trace}

private theorem follows_empty (graph : Graph) : Follows graph ⟨{}, {}⟩ where
  run := rfl
  faithful := Memo.faithful_empty
  size := rfl
  taken earlier := absurd earlier (Nat.not_lt_zero _)
  free _ := by simp
  suits _ held := by simp at held
  bounded held := by simp at held
  distinct held := by simp at held

private theorem next_eq_countP (streamed : graph.Streamed protocol root bytes trace) :
    (graph.opcodes protocol root).countP Opcode.stores = trace.memo.next := by
  rcases Trace.exists_delivery_eq streamed.emitted with ⟨body, delivery, framing⟩
  have heading : (Trace.heading protocol).countP Opcode.stores = 0 := by
    rw [Trace.heading]
    split <;> rfl
  have frames : body.countP Opcode.stores = trace.opcodes.countP Opcode.stores := by
    rw [← framing.content, Stream.countP_stores_filter]
  have ends : [Opcode.stop].countP Opcode.stores = 0 := rfl
  have counted : trace.opcodes.countP Opcode.stores = trace.memo.next :=
    streamed.grows.count_stores rfl
  rw [streamed.opcodes, delivery, List.countP_append, List.countP_append, heading, frames, ends,
    counted, Nat.zero_add, Nat.add_zero]

/-- The machine comes to the end of a stream with what the root is read as. -/
theorem exists_loaded (streamed : graph.Streamed protocol root bytes trace)
    (limits : graph.WithinLimits protocol root) (room : trace.memo.next ≤ 2 ^ 32) :
    ∃ machine value, Machine.load? bytes = some (value, machine.heap) ∧
      Follows graph ⟨trace, machine⟩ ∧ Settled graph protocol ⟨{}, {}⟩ ⟨trace, machine⟩ ∧
      Denotes graph protocol ⟨trace, machine⟩ root value := by
  rcases denoting_writeNode streamed.traced room _ (follows_empty graph).split with
      ⟨machine, follows, _, extends_, whole, hold⟩
  rcases hold with _ | ⟨denotes, _ | _⟩
  have begun : Extends graph protocol ⟨{}, {}⟩ ⟨({ : Trace }).record .split, {}⟩ :=
    .aside rfl rfl rfl
  refine ⟨machine, _, ?_, follows, (begun.trans extends_).settled, denotes⟩
  rcases Trace.exists_delivery_eq streamed.emitted with ⟨body, delivery, framing⟩
  have run : Machine.run? (Trace.heading protocol ++ body) {} = some machine := by
    have headed : Machine.run? (Trace.heading protocol) {} = some {} := by
      rw [Trace.heading]
      split <;> rfl
    rw [Machine.run?_append, headed, Option.bind_some, Machine.run?_filter_isFrame,
      framing.content, follows.run]
  rcases machine with ⟨stack, memo, heap⟩
  cases whole
  rw [Machine.load?, streamed.read? limits, streamed.opcodes, delivery]
  simp only [List.getLast?_concat, if_true, List.dropLast_concat, run]

/-! ## One place for each node -/

/-- What a node is read as: what is in the slot where the memo finds it, or else the scalar. -/
def place (graph : Graph) (protocol : Protocol) (stage : Stage) (id : NodeId) : Value :=
  match stage.trace.memo.find? (.node id) with
  | some slot => (stage.machine.memo[slot]?).getD .none
  | none => ((graph.node? id).bind (Node.scalar? protocol)).getD .none

section Place

variable {stage : Stage} {id : NodeId} {node : Node} (present : graph.node? id = some node)

include present

private theorem Denotes.inspect {value : Value} (denotes : Denotes graph protocol stage id value) :
    node.takesSlot = false ∧ node.scalar? protocol = some value ∨
      node.takesSlot ∧ ∃ slot : Nat, stage.trace.memo.slots[slot]? = some (some (.node id)) ∧
        stage.machine.memo[slot]? = some value := by
  rcases denotes with ⟨other, presentOther, parts⟩
  cases present.symm.trans presentOther
  exact parts

theorem Denotes.scalar {value : Value} (denotes : Denotes graph protocol stage id value)
    (slotless : node.takesSlot = false) : node.scalar? protocol = some value := by
  rcases denotes.inspect present with ⟨-, scalar⟩ | ⟨takesSlot, -⟩
  · exact scalar
  · simp [slotless] at takesSlot

private theorem Denotes.exists_slot {value : Value}
    (denotes : Denotes graph protocol stage id value) (takesSlot : node.takesSlot) :
    ∃ slot : Nat, stage.trace.memo.slots[slot]? = some (some (.node id)) ∧
      stage.machine.memo[slot]? = some value := by
  rcases denotes.inspect present with ⟨slotless, -⟩ | ⟨-, inSlot⟩
  · simp [slotless] at takesSlot
  · exact inSlot

theorem Denotes.exists_shown {value : Value} (denotes : Denotes graph protocol stage id value)
    (settled : Settled graph protocol ⟨{}, {}⟩ stage) (takesSlot : node.takesSlot) :
    ∃ address object, value = .object address ∧ stage.machine.heap[address]? = some object ∧
      Shows graph protocol stage id object := by
  rcases denotes.exists_slot present takesSlot with ⟨slot, keyed, held⟩
  rcases settled slot id (Nat.zero_le _) keyed with ⟨address, object, -, heldObject, found, shows⟩
  exact ⟨address, object, Option.some.inj (held.symm.trans heldObject), found, shows⟩

variable (follows : Follows graph stage)

include follows

private theorem find?_of_slotless (slotless : node.takesSlot = false) :
    stage.trace.memo.find? (.node id) = none := by
  by_contra found
  rcases Option.ne_none_iff_exists'.1 found with ⟨slot, found⟩
  have keyed := follows.faithful.holds found
  rcases follows.taken (Memo.lt_next_of_slot keyed) with ⟨value, held⟩
  rcases follows.suits keyed held with ⟨-, other, presentOther, takesSlot⟩
  cases present.symm.trans presentOther
  simp [slotless] at takesSlot

end Place

section Places

variable {stage : Stage} (follows : Follows graph stage)
  (distinct : stage.trace.memo.keys.Nodup)

include follows distinct

/-- With distinct keys a node is read as one value only. -/
private theorem Denotes.eq_place {id : NodeId} {value : Value}
    (denotes : Denotes graph protocol stage id value) : place graph protocol stage id = value := by
  rcases denotes with ⟨node, present, ⟨slotless, scalar⟩ | ⟨-, slot, keyed, held⟩⟩
  · rw [place]
    rw [find?_of_slotless present follows slotless, present]
    simp [scalar]
  · rcases Option.ne_none_iff_exists'.1 (follows.faithful.finds keyed) with ⟨found, finds⟩
    have same : found = slot := Memo.slot_unique distinct (follows.faithful.holds finds) keyed
    rw [place]
    rw [finds, same]
    simp [held]

theorem Shows.placed {id : NodeId} {node : Node} {object : Object}
    (shows : Shows graph protocol stage id object) (present : graph.node? id = some node) :
    (∀ child ∈ node.children, Denotes graph protocol stage child (place graph protocol stage child))
      ∧ node.object? protocol (node.children.map (place graph protocol stage)) = some object := by
  rcases shows with ⟨other, values, presentOther, -, denote, equal⟩
  cases present.symm.trans presentOther
  have places : node.children.map (place graph protocol stage) = values := by
    rw [← List.forall₂_eq_eq_eq, List.forall₂_map_left_iff]
    exact denote.imp fun _ _ denotes => denotes.eq_place follows distinct
  refine ⟨?_, places ▸ equal⟩
  rw [← places, List.forall₂_map_right_iff, List.forall₂_same] at denote
  exact denote

variable (settled : Settled graph protocol ⟨{}, {}⟩ stage) {value : Value}
  (denotes : Denotes graph protocol stage root value)

include settled denotes

private theorem denotes_place {id : NodeId} (path : graph.Reaches root id) :
    Denotes graph protocol stage id (place graph protocol stage id) := by
  induction path with
  | refl => rwa [denotes.eq_place follows distinct]
  | @tail middle last _ refers induction =>
      rcases refers with ⟨node, present, inside⟩
      have takesSlot : node.takesSlot := by
        by_contra slotless
        have isSlotless : graph.Slotless middle := ⟨node, present, by simpa using slotless⟩
        exact isSlotless.not_refersTo ⟨node, present, inside⟩
      rcases induction.exists_shown present settled takesSlot with ⟨address, object, -, -, shows⟩
      exact (shows.placed follows distinct present).1 last inside

/-- With distinct keys the heap holds the part of the graph that is reached from the root. -/
theorem represented :
    graph.Represented protocol root value stage.machine.heap (place graph protocol stage) where
  start := (denotes.eq_place follows distinct).symm
  present path := by
    rcases denotes_place follows distinct settled denotes path with ⟨node, present, -⟩
    exact ⟨node, present⟩
  scalars path present slotless :=
    (denotes_place follows distinct settled denotes path).scalar present slotless
  objects path present takesSlot := by
    have placed := denotes_place follows distinct settled denotes path
    rcases placed.exists_shown present settled takesSlot with
        ⟨address, object, isObject, found, shows⟩
    exact ⟨address, object, isObject, found, (shows.placed follows distinct present).2⟩
  distinct pathFirst pathSecond presentFirst presentSecond takesFirst takesSecond same := by
    have placedFirst := denotes_place follows distinct settled denotes pathFirst
    have placedSecond := denotes_place follows distinct settled denotes pathSecond
    rcases placedFirst.exists_shown presentFirst settled takesFirst with
        ⟨address, object, isObject, -⟩
    rcases placedFirst.exists_slot presentFirst takesFirst with ⟨firstSlot, keyedFirst, heldFirst⟩
    rcases placedSecond.exists_slot presentSecond takesSecond with
        ⟨secondSlot, keyedSecond, heldSecond⟩
    rw [← same, isObject] at heldSecond
    rw [isObject] at heldFirst
    rw [follows.distinct heldFirst heldSecond, keyedSecond] at keyedFirst
    cases keyedFirst
    rfl

end Places

end Stage

namespace Graph

variable {graph : Graph} {protocol : Protocol} {root : NodeId} {bytes : Bytes}

/-- Where no key took two slots, the machine makes of a stream what the stream was written for. -/
theorem exists_represented {trace : Trace} (streamed : Streamed graph protocol root bytes trace)
    (limits : graph.WithinLimits protocol root)
    (room : (graph.opcodes protocol root).countP Opcode.stores ≤ 2 ^ 32)
    (distinct : trace.memo.keys.Nodup) :
    ∃ value heap place, Machine.load? bytes = some (value, heap) ∧
      graph.Represented protocol root value heap place := by
  rw [Stage.next_eq_countP streamed] at room
  rcases Stage.exists_loaded streamed limits room with
      ⟨machine, value, loaded, follows, settled, denotes⟩
  exact ⟨value, machine.heap, _, loaded, Stage.represented follows distinct settled denotes⟩

end Graph

end PickleTrial
