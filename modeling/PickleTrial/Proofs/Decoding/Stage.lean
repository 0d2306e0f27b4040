import PickleTrial.Proofs.Decoding.Opcodes

/-! The machine beside a trace. At every stage the machine has carried out the opcodes of the trace;
the slots of its memo are those of the encoder, and what is in the slot of a node is the object that
the node was read as. -/

namespace PickleTrial

open Machine (Value Object Entry)

/-! ## What nodes are read as -/

def TypedArray.through (protocol : Protocol) : TypedArray → TypedArray
  | .text characters => .text characters
  | .integers code words => .integers code words
  -- Items are written one by one below protocol 3, and packed from there on.
  | .singles items => .singles (items.map (Binary32.through protocol))
  | .doubles items => .doubles (items.map (Binary64.through protocol))

namespace Node

/-- The value that a node without a slot is read as. -/
def scalar? (protocol : Protocol) : Node → Option Value
  | .none => some .none
  | .bool value => some (.bool value)
  | .int value => some (.int value.toInt)
  | .bigInt literal => (Integer.ofLiteral? literal.toList).map .int
  | .float value => some (.float (value.through protocol))
  | .tuple [] => some .emptyTuple
  | _ => Option.none

/-- The object that a node with a slot is read as, from the values that its children are. -/
def object? (protocol : Protocol) (values : List Value) : Node → Option Object
  | .text content => some (.text content)
  | .bytes content => some (.bytes content)
  | .byteArray content => some (.byteArray content)
  | .complex re im => some (.complex (re.through protocol) (im.through protocol))
  | .moment value => some (.moment value.packed)
  | .date value => some (.date value.packed)
  | .time value => some (.time value.packed)
  | .duration value =>
      value.microseconds?.map fun count =>
        let parts := Duration.parts count
        .duration parts.days parts.seconds parts.microseconds
  | .decimal literal => (Decimal.canonical? literal).map .decimal
  | .array value => some (.array (value.through protocol))
  | .tuple _ => some (.tuple values)
  | .list _ => some (.list values)
  | .set _ => some (.set values)
  | .dict _ => (Machine.pairs? values).map .dict
  | _ => Option.none

end Node

/-- An encoder and a machine that reads what the encoder writes. -/
structure Stage where
  trace : Trace
  machine : Machine

namespace Stage

/-- What a slot holds that was taken with a key. -/
def Suits (graph : Graph) (heap : List Object) : MemoKey → Value → Prop
  | .node id, value =>
      (∃ address, value = .object address) ∧ ∃ node, graph.node? id = some node ∧ node.takesSlot
  | .callable callable, value => value = .callable callable
  | .text content, value => Machine.textOf? heap value = some content

/-- The machine has read what the encoder wrote. -/
structure Follows (graph : Graph) (stage : Stage) : Prop where
  run : Machine.run? stage.trace.opcodes {} = some stage.machine
  faithful : stage.trace.memo.Faithful
  size : stage.machine.memo.size = stage.trace.memo.next
  taken : ∀ {slot : Nat}, slot < stage.trace.memo.next →
    ∃ value, stage.machine.memo[slot]? = some value
  free : ∀ {slot : Nat}, stage.trace.memo.next ≤ slot → stage.machine.memo[slot]? = none
  suits : ∀ {slot : Nat} {key value}, stage.trace.memo.slots[slot]? = some (some key) →
    stage.machine.memo[slot]? = some value → Suits graph stage.machine.heap key value
  bounded : ∀ {slot : Nat} {address}, stage.machine.memo[slot]? = some (.object address) →
    address < stage.machine.heap.length
  distinct : ∀ {first second : Nat} {address},
    stage.machine.memo[first]? = some (.object address) →
    stage.machine.memo[second]? = some (.object address) → first = second

/-- The value is what the node is read as: the scalar, or what is in a slot of the node. -/
def Denotes (graph : Graph) (protocol : Protocol) (stage : Stage) (id : NodeId) (value : Value) :
    Prop :=
  ∃ node, graph.node? id = some node ∧
    (node.takesSlot = false ∧ node.scalar? protocol = some value ∨
      node.takesSlot ∧ ∃ slot : Nat, stage.trace.memo.slots[slot]? = some (some (.node id)) ∧
        stage.machine.memo[slot]? = some value)

/-- The object shows the node, with values for its children. -/
def Shows (graph : Graph) (protocol : Protocol) (stage : Stage) (id : NodeId) (object : Object) :
    Prop :=
  ∃ node values, graph.node? id = some node ∧ node.takesSlot ∧
    List.Forall₂ (Denotes graph protocol stage) node.children values ∧
    node.object? protocol values = some object

/-! ## What stays -/

def isFilled : Object → Bool
  | .list _ | .set _ | .dict _ => true
  | _ => false

/-- A heap that may have grown, and in which only what is filled in place has changed. -/
structure HeapKept (before after : List Object) : Prop where
  length : before.length ≤ after.length
  fixed : ∀ {address : Nat} {object}, before[address]? = some object → isFilled object = false →
    after[address]? = some object

theorem HeapKept.refl (heap : List Object) : HeapKept heap heap :=
  ⟨Nat.le_refl _, fun found _ => found⟩

private theorem HeapKept.trans {first second third : List Object} (left : HeapKept first second)
    (right : HeapKept second third) : HeapKept first third :=
  ⟨Nat.le_trans left.length right.length,
    fun found plain => right.fixed (left.fixed found plain) plain⟩

theorem HeapKept.append (heap added : List Object) : HeapKept heap (heap ++ added) where
  length := by simp
  fixed found _ := by
    rw [List.getElem?_append_left (List.getElem?_eq_some_iff.1 found).1]
    exact found

private theorem HeapKept.textOf? {before after : List Object} (kept : HeapKept before after)
    {value : Value} {content : String} (found : Machine.textOf? before value = some content) :
    Machine.textOf? after value = some content := by
  rcases Option.bind_eq_some_iff.1 found with ⟨object, isObject, isText⟩
  cases value with
  | object address =>
      cases object with
      | text => exact Option.bind_eq_some_iff.2 ⟨_, kept.fixed isObject rfl, isText⟩
      | _ => cases isText
  | _ => cases isObject

private theorem HeapKept.suits {graph : Graph} {before after : List Object}
    (kept : HeapKept before after)
    {key : MemoKey} {value : Value} (suits : Suits graph before key value) :
    Suits graph after key value := by
  cases key with
  | node => exact suits
  | callable => exact suits
  | text => exact kept.textOf? suits

/-- A later stage, at which every slot is what it was. -/
structure Keeps (before after : Stage) : Prop where
  slots : ∀ {slot : Nat} {key}, before.trace.memo.slots[slot]? = some key →
    after.trace.memo.slots[slot]? = some key
  memo : ∀ {slot : Nat} {value}, before.machine.memo[slot]? = some value →
    after.machine.memo[slot]? = some value
  heap : HeapKept before.machine.heap after.machine.heap

private theorem Keeps.refl (stage : Stage) : Keeps stage stage :=
  ⟨id, id, .refl _⟩

theorem Keeps.trans {first second third : Stage} (left : Keeps first second)
    (right : Keeps second third) : Keeps first third :=
  ⟨fun found => right.slots (left.slots found), fun found => right.memo (left.memo found),
    left.heap.trans right.heap⟩

theorem Keeps.slot_of_lt {before after : Stage} (keeps : Keeps before after) {slot : Nat}
    (earlier : slot < before.trace.memo.next) {key : Option MemoKey}
    (keyed : after.trace.memo.slots[slot]? = some key) :
    before.trace.memo.slots[slot]? = some key := by
  have taken := Array.getElem?_eq_getElem earlier
  rw [taken, ← keyed, keeps.slots taken]

variable {graph : Graph} {protocol : Protocol}

theorem Denotes.kept {before after : Stage} {id : NodeId} {value : Value}
    (denotes : Denotes graph protocol before id value) (keeps : Keeps before after) :
    Denotes graph protocol after id value := by
  rcases denotes with ⟨node, present, scalar | ⟨takesSlot, slot, keyed, held⟩⟩
  · exact ⟨node, present, Or.inl scalar⟩
  · exact ⟨node, present, Or.inr ⟨takesSlot, slot, keeps.slots keyed, keeps.memo held⟩⟩

theorem Shows.kept {before after : Stage} {id : NodeId} {object : Object}
    (shows : Shows graph protocol before id object) (keeps : Keeps before after) :
    Shows graph protocol after id object := by
  rcases shows with ⟨node, values, present, takesSlot, denote, equal⟩
  exact ⟨node, values, present, takesSlot, denote.imp fun _ _ denotes => denotes.kept keeps, equal⟩

/-- The slots given since a stage to nodes are settled: they hold objects, made since then, that
show the nodes. -/
def Settled (graph : Graph) (protocol : Protocol) (before after : Stage) : Prop :=
  ∀ (slot : Nat) (id : NodeId), before.trace.memo.next ≤ slot →
    after.trace.memo.slots[slot]? = some (some (.node id)) →
    ∃ address object, before.machine.heap.length ≤ address ∧
      after.machine.memo[slot]? = some (.object address) ∧
      after.machine.heap[address]? = some object ∧ Shows graph protocol after id object

/-- A later stage, with every object as it was and every slot given since settled. -/
structure Extends (graph : Graph) (protocol : Protocol) (before after : Stage) : Prop
    extends Keeps before after where
  frame : ∀ {address : Nat}, address < before.machine.heap.length →
    after.machine.heap[address]? = before.machine.heap[address]?
  settled : Settled graph protocol before after

theorem settled_of_next_le {before after : Stage}
    (same : after.trace.memo.next ≤ before.trace.memo.next) :
    Settled graph protocol before after := by
  intro slot id later keyed
  have earlier := Memo.lt_next_of_slot keyed
  omega

theorem Extends.refl (stage : Stage) : Extends graph protocol stage stage where
  toKeeps := .refl stage
  frame _ := rfl
  settled := settled_of_next_le (Nat.le_refl _)

theorem Extends.trans {first second third : Stage} (left : Extends graph protocol first second)
    (right : Extends graph protocol second third) : Extends graph protocol first third where
  toKeeps := left.toKeeps.trans right.toKeeps
  frame old := by
    rw [right.frame (Nat.lt_of_lt_of_le old left.heap.length), left.frame old]
  settled := by
    intro slot id later keyed
    by_cases recent : second.trace.memo.next ≤ slot
    · rcases right.settled slot id recent keyed with ⟨address, object, young, held, found, shows⟩
      exact ⟨address, object, Nat.le_trans left.heap.length young, held, found, shows⟩
    · have known := right.slot_of_lt (Nat.lt_of_not_le recent) keyed
      rcases left.settled slot id later known with ⟨address, object, young, held, found, shows⟩
      have old := (List.getElem?_eq_some_iff.1 found).1
      refine ⟨address, object, young, right.memo held, ?_, shows.kept right.toKeeps⟩
      rw [right.frame old, found]

/-! ## Moves -/

section Insert

variable {memo : Std.TreeMap Nat Value} {slot other : Nat} {value : Value}

theorem getElem?_insert_self : (memo.insert slot value)[slot]? = some value := by
  simp

theorem getElem?_insert_of_ne (different : other ≠ slot) :
    (memo.insert slot value)[other]? = memo[other]? := by
  simp [Std.TreeMap.getElem?_insert, different.symm]

/-- What is held after a slot was added is held in that slot, or was held before. -/
private theorem getElem?_insert_cases {held : Value}
    (found : (memo.insert slot value)[other]? = some held) :
    other = slot ∧ value = held ∨ other ≠ slot ∧ memo[other]? = some held := by
  by_cases latest : other = slot
  · rw [latest, getElem?_insert_self, Option.some.injEq] at found
    exact .inl ⟨latest, found⟩
  · rw [getElem?_insert_of_ne latest] at found
    exact .inr ⟨latest, found⟩

end Insert

namespace Follows

variable {stage : Stage}

theorem split (follows : Follows graph stage) :
    Follows graph ⟨stage.trace.record .split, stage.machine⟩ :=
  { follows with run := by rw [Trace.opcodes_split, follows.run] }

theorem begins (follows : Follows graph stage) (id : NodeId) :
    Follows graph ⟨stage.trace.record (.begins id), stage.machine⟩ :=
  { follows with run := by rw [Trace.opcodes_begins, follows.run] }

theorem emit (follows : Follows graph stage) {opcode : Opcode} {machine : Machine}
    (step : stage.machine.step? opcode = some machine) (memo : machine.memo = stage.machine.memo)
    (heap : HeapKept stage.machine.heap machine.heap) :
    Follows graph ⟨stage.trace.emit opcode, machine⟩ where
  run := by rw [Trace.opcodes_emit, Machine.run?_concat, follows.run, Option.bind_some, step]
  faithful := follows.faithful
  size := by rw [memo, follows.size, Trace.memo_emit]
  taken earlier := by
    rw [memo]
    exact follows.taken earlier
  free later := by
    rw [memo]
    exact follows.free later
  suits keyed held := by
    rw [memo] at held
    exact heap.suits (follows.suits keyed held)
  bounded held := by
    rw [memo] at held
    exact Nat.lt_of_lt_of_le (follows.bounded held) heap.length
  distinct first second := by
    rw [memo] at first second
    exact follows.distinct first second

private theorem step?_putOpcode (follows : Follows graph stage) {value : Value} {below : List Entry}
    (top : stage.machine.stack = .value value :: below)
    (room : stage.trace.memo.next < 2 ^ 32) :
    stage.machine.step? (protocol.putOpcode stage.trace.memo.next) =
      some { stage.machine with
        memo := stage.machine.memo.insert stage.trace.memo.next value } := by
  have stores : stage.machine.store? stage.trace.memo.next =
      some { stage.machine with
        memo := stage.machine.memo.insert stage.trace.memo.next value } := by
    simp only [Machine.store?, top]
  by_cases recent : 4 ≤ protocol.version
  · rw [Protocol.putOpcode, if_pos recent, ← stores, ← follows.size]
    rfl
  · have named := protocol.putSlot?_putOpcode (Nat.not_le.1 recent) stage.trace.memo.next
    rw [Machine.carriedSlot_of_lt protocol room] at named
    rw [Machine.step?_putSlot? named, stores]

/-- The value on top is given the next slot. An object has no slot yet. -/
theorem remember (follows : Follows graph stage) {value : Value} {below : List Entry}
    (top : stage.machine.stack = .value value :: below)
    (room : stage.trace.memo.next < 2 ^ 32) {key : Option MemoKey}
    (suits : ∀ known, key = some known → Suits graph stage.machine.heap known value)
    (fresh : ∀ address, value = .object address → address < stage.machine.heap.length ∧
      ∀ slot : Nat, stage.machine.memo[slot]? ≠ some (.object address)) :
    Follows graph ⟨stage.trace.remember protocol key,
      { stage.machine with
        memo := stage.machine.memo.insert stage.trace.memo.next value }⟩ where
  run := by
    rw [Trace.opcodes_remember, Machine.run?_concat, follows.run, Option.bind_some,
      follows.step?_putOpcode top room]
  faithful := follows.faithful.take key
  size := by
    have missing : ¬stage.machine.memo.contains stage.trace.memo.next = true := by
      rw [Std.TreeMap.contains_eq_isSome_getElem?, follows.free (Nat.le_refl _)]
      decide
    rw [Trace.memo_remember, Memo.next_take, Std.TreeMap.size_insert, if_neg missing,
      follows.size]
  taken {slot} earlier := by
    rw [Trace.memo_remember, Memo.next_take] at earlier
    by_cases latest : slot = stage.trace.memo.next
    · exact ⟨value, latest ▸ getElem?_insert_self⟩
    · rw [getElem?_insert_of_ne latest]
      exact follows.taken (by omega)
  free {slot} later := by
    rw [Trace.memo_remember, Memo.next_take] at later
    rw [getElem?_insert_of_ne (by omega)]
    exact follows.free (by omega)
  suits {slot known held} keyed found := by
    rcases getElem?_insert_cases found with ⟨rfl, rfl⟩ | ⟨older, found⟩
    · rw [Trace.memo_remember, Memo.slots_take_next, Option.some.injEq] at keyed
      exact suits known keyed
    · have earlier := Memo.lt_next_of_slot keyed
      rw [Trace.memo_remember, Memo.next_take] at earlier
      rw [Trace.memo_remember, Memo.slots_take_of_lt _ _ (by omega)] at keyed
      exact follows.suits keyed found
  bounded {slot address} held := by
    rcases getElem?_insert_cases held with ⟨-, isObject⟩ | ⟨-, held⟩
    · exact (fresh address isObject).1
    · exact follows.bounded held
  distinct {first second address} inFirst inSecond := by
    -- An object is in the new slot only if no older slot holds it.
    rcases getElem?_insert_cases inFirst with ⟨rfl, isFirst⟩ | ⟨-, inFirst⟩
    · rcases getElem?_insert_cases inSecond with ⟨rfl, -⟩ | ⟨-, inSecond⟩
      · rfl
      · exact absurd inSecond ((fresh address isFirst).2 second)
    · rcases getElem?_insert_cases inSecond with ⟨-, isSecond⟩ | ⟨-, inSecond⟩
      · exact absurd inFirst ((fresh address isSecond).2 first)
      · exact follows.distinct inFirst inSecond

end Follows

end Stage

end PickleTrial
