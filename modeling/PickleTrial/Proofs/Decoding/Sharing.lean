import PickleTrial.Proofs.Decoding.Isomorphism

/-! One slot for each object. Where no set is written twice, every node that takes a slot has one
only, is fetched from there wherever it is met again, and is one object for the machine. A set is
written twice below protocol 4, where it begins while nothing on some way from it to itself has a
slot: it has no slot before its items are complete, and the one that it was given meanwhile is not
looked for. -/

namespace PickleTrial

namespace Graph

/-- No key has two slots, every node that takes a slot has one, and a node that has its slot is
fetched from it where it begins again. -/
structure StoresOnce (graph : Graph) (protocol : Protocol) (root : NodeId) (trace : Trace) :
    Prop where
  keys : trace.memo.keys.Nodup
  slots : ∀ {id node}, graph.Reaches root id → graph.node? id = some node → node.takesSlot →
    ∃! slot : Nat, trace.memo.slots[slot]? = some (some (.node id))
  fetched : ∀ {index slot : Nat} {id}, trace.events[index]? = some (.begins id) →
    slot < Trace.slotCount (trace.events.take index) →
    trace.memo.slots[slot]? = some (some (.node id)) →
    trace.events[index + 1]? = some (.op (protocol.getOpcode slot))

variable {graph : Graph} {protocol : Protocol} {root : NodeId} {bytes : Bytes} {trace : Trace}

/-- A node that is met from the root and takes a slot has one in the end. -/
private theorem exists_slot (complete : graph.trace protocol root = .complete trace) {id : NodeId}
    {node : Node} (path : graph.Reaches root id) (present : graph.node? id = some node)
    (takesSlot : node.takesSlot) :
    ∃ slot : Nat, trace.memo.slots[slot]? = some (some (.node id)) := by
  rcases settled_of_reaches complete path with stored | ⟨other, presentOther, slotless⟩
  · rcases Option.ne_none_iff_exists'.1 stored with ⟨slot, found⟩
    exact ⟨slot, (coherent_trace complete).faithful.holds found⟩
  · cases present.symm.trans presentOther
    simp [slotless] at takesSlot

private theorem storesOnce_of_nodup (complete : graph.trace protocol root = .complete trace)
    (distinct : trace.memo.keys.Nodup) : StoresOnce graph protocol root trace where
  keys := distinct
  slots path present takesSlot := by
    rcases exists_slot complete path present takesSlot with ⟨slot, keyed⟩
    exact ⟨slot, keyed, fun other keyedOther => Memo.slot_unique distinct keyedOther keyed⟩
  fetched begins given keyed := by
    rcases (meets_trace complete begins).2 ⟨_, given, keyed⟩ with ⟨found, -, keyedFound, get⟩
    rwa [Memo.slot_unique distinct keyed keyedFound]

/-- The root begins before anything else, when there are no slots. -/
private theorem renewed_of_onCycle (complete : graph.trace protocol root = .complete trace)
    (old : protocol.version < 4) {items : List NodeId}
    (isSet : graph.node? root = some (.set items)) (cycle : graph.OnCycle root) :
    trace.events[1]? = some (.begins root) ∧ Trace.Renewed graph protocol trace 1 root := by
  have grows : Trace.Grows protocol (({ : Trace }.record .split).record (.begins root)) trace := by
    refine Trace.writeNode_induction (motive := fun id trace final =>
      Trace.Grows protocol (trace.record (.begins id)) final) ?_ ?_ complete
    · exact fun _ => .emit (protocol.getOpcode_plain _) .refl
    · intro depth id node steps trace final writes missing present plan performed
      refine Trace.Grows.performAll ?_ (Protocol.planned_of_mem_plan plan) performed
      exact fun written => .trans (.begins _ .refl) (writes written)
  have begun : (({ : Trace }.record .split).record (.begins root)).events =
      [.split, .begins root] := rfl
  refine ⟨grows.getElem?_events (by simp [begun]), old, ⟨items, isSet⟩, ?_⟩
  refine Relation.TransGen.mono (fun first second refers => ⟨refers, ?_⟩) _ _ cycle
  intro given
  rcases given with ⟨slot, given, -⟩
  rw [grows.take_events (by simp [begun])] at given
  exact absurd given (Nat.not_lt_zero _)

/-- A stream that is encoded to its end stores every object once exactly where no set is renewed,
and then the machine makes one object of each node. -/
theorem storesOnce_iff (encoded : graph.pickle protocol.version root = .ok bytes) :
    ∃ trace, graph.trace protocol root = .complete trace ∧
      bytes = Stream.bytes (trace.delivery protocol) ∧
      (StoresOnce graph protocol root trace ↔
        ∀ index id, trace.events[index]? = some (.begins id) →
          ¬Trace.Renewed graph protocol trace index id) ∧
      (StoresOnce graph protocol root trace → graph.WithinLimits protocol root →
        (graph.opcodes protocol root).countP Opcode.stores ≤ 2 ^ 32 →
        ∃ value heap place, Machine.load? bytes = some (value, heap) ∧
          graph.Represented protocol root value heap place) := by
  rcases exists_streamed encoded with ⟨trace, streamed⟩
  refine ⟨trace, streamed.traced, streamed.bytes, ?_, ?_⟩
  · rw [← nodup_keys_trace_iff streamed.traced]
    exact ⟨StoresOnce.keys, storesOnce_of_nodup streamed.traced⟩
  · exact fun once limits room => exists_represented streamed limits room once.keys

/-- A set of a list of the set, from protocol 2. -/
theorem not_storesOnce_selfMember :
    ∃ trace, Graph.trace ⟨#[.list [1], .set [0]]⟩ ⟨2, by decide⟩ 1 = .complete trace ∧
      ¬StoresOnce ⟨#[.list [1], .set [0]]⟩ ⟨2, by decide⟩ 1 trace := by
  have encoded : Graph.pickle ⟨#[.list [1], .set [0]]⟩ (Protocol.version ⟨2, by decide⟩) 1 =
      .ok [0x80, 0x02, 0x63, 0x5f, 0x5f, 0x62, 0x75, 0x69, 0x6c, 0x74, 0x69, 0x6e, 0x5f, 0x5f,
        0x0a, 0x73, 0x65, 0x74, 0x0a, 0x71, 0x00, 0x5d, 0x71, 0x01, 0x5d, 0x71, 0x02, 0x68, 0x00,
        0x5d, 0x71, 0x03, 0x68, 0x02, 0x61, 0x85, 0x71, 0x04, 0x52, 0x71, 0x05, 0x61, 0x61, 0x85,
        0x71, 0x06, 0x52, 0x71, 0x07, 0x2e] := by decide +kernel
  rcases storesOnce_iff encoded with ⟨trace, complete, -, exactly, -⟩
  have cycle : OnCycle ⟨#[.list [1], .set [0]]⟩ 1 :=
    .tail (.single ⟨.set [0], rfl, List.mem_cons_self⟩) ⟨.list [1], rfl, List.mem_cons_self⟩
  rcases renewed_of_onCycle complete (by decide) rfl cycle with ⟨begins, renewed⟩
  exact ⟨trace, complete, fun once => exactly.1 once 1 1 begins renewed⟩

/-- The machine makes two objects of that set: the set of a list, and another one in the list. -/
example : Machine.load? [0x80, 0x02, 0x63, 0x5f, 0x5f, 0x62, 0x75, 0x69, 0x6c, 0x74, 0x69, 0x6e,
    0x5f, 0x5f, 0x0a, 0x73, 0x65, 0x74, 0x0a, 0x71, 0x00, 0x5d, 0x71, 0x01, 0x5d, 0x71, 0x02, 0x68,
    0x00, 0x5d, 0x71, 0x03, 0x68, 0x02, 0x61, 0x85, 0x71, 0x04, 0x52, 0x71, 0x05, 0x61, 0x61, 0x85,
    0x71, 0x06, 0x52, 0x71, 0x07, 0x2e] =
      some (.object 6, [.list [.object 1], .list [.object 4], .list [.object 1],
        .tuple [.object 2], .set [.object 1], .tuple [.object 0], .set [.object 1]]) := by
  decide +kernel

end Graph

end PickleTrial
