import PickleTrial.Proofs.Encoding.Storing

/-! When an object is given two slots. Of all nodes only a set below protocol 4 can be: when it
begins while nothing on the way from it to itself has a slot, it is completed once within itself
and then once more. Every other object is found in the memo when it is met again. -/

namespace PickleTrial

namespace Trace

variable {graph : Graph} {protocol : Protocol} {write : NodeId → Trace → Outcome}

/-! ## Slots and events -/

def slotCount (events : List Event) : Nat :=
  (events.filterMap Event.opcode?).countP Opcode.stores

/-- The memo finds what it holds, and the events have given its slots. -/
structure Coherent (trace : Trace) : Prop where
  faithful : trace.memo.Faithful
  counted : slotCount trace.events = trace.memo.next

private theorem coherent_empty : Coherent {} where
  faithful := Memo.faithful_empty
  counted := rfl

private theorem Grows.coherent {trace final : Trace} (grows : Grows protocol trace final)
    (coherent : trace.Coherent) : final.Coherent where
  faithful := grows.faithful coherent.faithful
  counted := grows.count_stores coherent.counted

theorem Grows.take_events {trace final : Trace} (grows : Grows protocol trace final) {index : Nat}
    (earlier : index ≤ trace.events.length) :
    final.events.take index = trace.events.take index := by
  rcases grows.events with ⟨added, equal⟩
  rw [equal, List.take_append_of_le_length earlier]

theorem Grows.getElem?_events {trace final : Trace} (grows : Grows protocol trace final)
    {index : Nat} (earlier : index < trace.events.length) :
    final.events[index]? = trace.events[index]? := by
  rcases grows.events with ⟨added, equal⟩
  rw [equal, List.getElem?_append_left earlier]

private theorem Grows.length_events {trace final : Trace} (grows : Grows protocol trace final) :
    trace.events.length ≤ final.events.length := by
  rcases grows.events with ⟨added, equal⟩
  simp [equal]

private theorem slotCount_take_le (events : List Event) (index : Nat) :
    slotCount (events.take index) ≤ slotCount events :=
  List.Sublist.countP_le ((List.take_sublist index events).filterMap Event.opcode?)

private theorem Grows.slots_before {trace final : Trace} (grows : Grows protocol trace final)
    {slot : Nat} (earlier : slot < trace.memo.next) :
    final.memo.slots[slot]? = trace.memo.slots[slot]? := by
  have taken := Array.getElem?_eq_getElem earlier
  rw [taken]
  exact grows.slots taken

def StoredBefore (trace : Trace) (index : Nat) (id : NodeId) : Prop :=
  ∃ slot < slotCount (trace.events.take index), trace.memo.slots[slot]? = some (some (.node id))

private theorem Grows.storedBefore_iff {trace final : Trace} (grows : Grows protocol trace final)
    (coherent : trace.Coherent) {index : Nat} (earlier : index ≤ trace.events.length)
    (id : NodeId) : final.StoredBefore index id ↔ trace.StoredBefore index id := by
  rw [StoredBefore]
  rw [grows.take_events earlier]
  refine exists_congr fun slot => and_congr_right fun given => ?_
  have bound := slotCount_take_le trace.events index
  rw [grows.slots_before (by rw [← coherent.counted]; omega)]

private theorem Coherent.storedBefore_length {trace : Trace} (coherent : trace.Coherent)
    (id : NodeId) : trace.StoredBefore trace.events.length id ↔ trace.Stored id := by
  rw [StoredBefore, Stored]
  rw [List.take_length, coherent.counted, ← coherent.faithful.mem_keys_iff, Memo.mem_keys]
  constructor
  · intro given
    rcases given with ⟨slot, -, held⟩
    exact ⟨slot, held⟩
  · intro given
    rcases given with ⟨slot, held⟩
    exact ⟨slot, Memo.lt_next_of_slot held, held⟩

private theorem not_begins_concat {events : List Event} {event : Event} {index : Nat} {id : NodeId}
    (before : events[index]? ≠ some (.begins id)) (other : event ≠ .begins id) :
    (events ++ [event])[index]? ≠ some (.begins id) := by
  rw [List.getElem?_append]
  split
  · exact before
  · intro found
    exact other (List.mem_singleton.1 (List.mem_of_getElem? found)).symm

private theorem not_begins_length (events : List Event) {index : Nat}
    (later : events.length ≤ index) (id : NodeId) : events[index]? ≠ some (.begins id) := by
  rw [List.getElem?_eq_none later]
  simp

private theorem getElem?_record_begins (trace : Trace) (id : NodeId) :
    (trace.record (.begins id)).events[trace.events.length]? = some (.begins id) := by
  rw [events_record, List.getElem?_concat_length]

/-- From a node that begins on there is no other one. -/
private theorem eq_of_record_begins {trace : Trace} {index : Nat} {id other : NodeId}
    (later : trace.events.length ≤ index)
    (begins : (trace.record (.begins id)).events[index]? = some (.begins other)) :
    index = trace.events.length ∧ id = other := by
  have bound := (List.getElem?_eq_some_iff.1 begins).1
  rw [events_record, List.length_append, List.length_singleton] at bound
  have exactly : index = trace.events.length := by omega
  rw [exactly, getElem?_record_begins, Option.some.injEq, Event.begins.injEq] at begins
  exact ⟨exactly, begins⟩

private theorem Aside.not_begins {trace final : Trace} (aside : Aside protocol trace final)
    {index : Nat} (later : trace.events.length ≤ index) (id : NodeId) :
    final.events[index]? ≠ some (.begins id) := by
  induction aside with
  | refl => exact not_begins_length trace.events later id
  | split _ induction =>
      rw [events_record]
      exact not_begins_concat induction (by simp)
  | emit _ _ induction =>
      rw [events_emit]
      exact not_begins_concat induction (by simp)
  | fresh _ induction =>
      rw [events_remember]
      exact not_begins_concat induction (by simp)
  | shared _ _ _ induction =>
      rw [events_remember]
      exact not_begins_concat induction (by simp)

private theorem Aside.nodup_keys {trace final : Trace} (aside : Aside protocol trace final)
    (faithful : trace.memo.Faithful) : final.memo.keys.Nodup ↔ trace.memo.keys.Nodup := by
  induction aside with
  | refl => rfl
  | split _ induction => exact induction
  | emit _ _ induction => exact induction
  | fresh _ induction => rw [← induction, memo_remember, Memo.keys_take_none]
  | @shared middle key _ missing aside induction =>
      have absent : key ∉ middle.memo.keys := by
        rw [(aside.grows.faithful faithful).mem_keys_iff]
        exact fun found => found missing
      rw [← induction, memo_remember, Memo.nodup_keys_take_some]
      exact and_iff_left absent

private theorem nodup_remember_node {trace : Trace} (faithful : trace.memo.Faithful) (id : NodeId) :
    (trace.remember protocol (some (.node id))).memo.keys.Nodup ↔
      trace.memo.keys.Nodup ∧ ¬trace.Stored id := by
  rw [Stored, ← faithful.mem_keys_iff, memo_remember, Memo.nodup_keys_take_some]

/-! ## Sets within themselves -/

/-- Where the event at an index begins a set, the set is written twice: it is made of a list, and
nothing on some way from it to itself has a slot yet. -/
def Renewed (graph : Graph) (protocol : Protocol) (trace : Trace) (index : Nat) (id : NodeId) :
    Prop :=
  protocol.version < 4 ∧ (∃ items, graph.node? id = some (.set items)) ∧
    Relation.TransGen
      (fun first second => graph.RefersTo first second ∧ ¬trace.StoredBefore index second) id id

private theorem Grows.renewed_iff {trace final : Trace} (grows : Grows protocol trace final)
    (coherent : trace.Coherent) {index : Nat} (earlier : index ≤ trace.events.length)
    (id : NodeId) :
    Renewed graph protocol final index id ↔ Renewed graph protocol trace index id := by
  unfold Renewed
  simp only [grows.storedBefore_iff coherent earlier]

private theorem Renewed.not_storedBefore {trace : Trace} {index : Nat} {id : NodeId}
    (renewed : Renewed graph protocol trace index id) : ¬trace.StoredBefore index id := by
  rcases renewed with ⟨-, -, cycle⟩
  rcases Relation.TransGen.tail'_iff.1 cycle with ⟨last, -, step⟩
  exact step.2

private theorem Coherent.renewed_length {trace : Trace} (coherent : trace.Coherent) (id : NodeId) :
    Renewed graph protocol trace trace.events.length id ↔ protocol.version < 4 ∧
      (∃ items, graph.node? id = some (.set items)) ∧
        Relation.TransGen (Opens graph trace) id id := by
  unfold Renewed Opens
  simp only [coherent.storedBefore_length]

/-- Between two traces keys stay distinct exactly where no set is renewed. -/
structure DistinctIff (graph : Graph) (protocol : Protocol) (trace final : Trace) : Prop where
  grows : Grows protocol trace final
  distinct : trace.Coherent → (final.memo.keys.Nodup ↔ trace.memo.keys.Nodup ∧
    ∀ index id, trace.events.length ≤ index → final.events[index]? = some (.begins id) →
      ¬Renewed graph protocol final index id)

namespace DistinctIff

variable {first second third : Trace}

private theorem aside (aside : Aside protocol first second) :
    DistinctIff graph protocol first second where
  grows := aside.grows
  distinct coherent := by
    rw [aside.nodup_keys coherent.faithful]
    exact ⟨fun distinct => ⟨distinct, fun index id later begins =>
      absurd begins (aside.not_begins later id)⟩, And.left⟩

private theorem refl (trace : Trace) : DistinctIff graph protocol trace trace :=
  .aside .refl

private theorem trans (left : DistinctIff graph protocol first second)
    (right : DistinctIff graph protocol second third) :
    DistinctIff graph protocol first third where
  grows := left.grows.trans right.grows
  distinct coherent := by
    have coherentSecond := left.grows.coherent coherent
    rw [right.distinct coherentSecond, left.distinct coherent, and_assoc]
    refine and_congr_right fun _ => ⟨?_, ?_⟩
    · intro given index id later begins
      rcases given with ⟨inFirst, inSecond⟩
      by_cases earlier : index < second.events.length
      · rw [right.grows.getElem?_events earlier] at begins
        rw [right.grows.renewed_iff coherentSecond earlier.le]
        exact inFirst index id later begins
      · exact inSecond index id (not_lt.1 earlier) begins
    · intro all
      refine ⟨fun index id later begins => ?_, fun index id later begins => ?_⟩
      · have earlier : index < second.events.length := (List.getElem?_eq_some_iff.1 begins).1
        rw [← right.grows.renewed_iff coherentSecond earlier.le]
        exact all index id later ((right.grows.getElem?_events earlier).trans begins)
      · exact all index id (left.grows.length_events.trans later) begins

end DistinctIff

section Plan

variable {depth : Nat} {node : Node} {id : NodeId} {steps : List Step} {trace final : Trace}

/-- A node begins: whether it is renewed is told by the slots there are. -/
private theorem distinctIff_begins (notRenewed : trace.Coherent →
      ¬Renewed graph protocol trace trace.events.length id) :
    DistinctIff graph protocol trace (trace.record (.begins id)) where
  grows := .begins id .refl
  distinct coherent := by
    refine ⟨fun distinct => ⟨distinct, fun index other later begins => ?_⟩, And.left⟩
    rcases eq_of_record_begins later begins with ⟨rfl, rfl⟩
    have grows : Grows protocol trace (trace.record (.begins id)) := .begins id .refl
    rw [grows.renewed_iff coherent (Nat.le_refl _)]
    exact notRenewed coherent

private theorem distinctIff_own (missing : trace.Coherent → ¬trace.Stored id) :
    DistinctIff graph protocol trace (trace.remember protocol (some (.node id))) where
  grows := .remember _ .refl
  distinct coherent := by
    rw [nodup_remember_node coherent.faithful]
    refine ⟨fun distinct => ⟨distinct.1, fun index other later begins => ?_⟩,
      fun distinct => ⟨distinct.1, missing coherent⟩⟩
    rw [events_remember] at begins
    exact absurd begins (not_begins_concat (not_begins_length _ later other) (by simp))

private theorem distinctIff_inner
    (writes : ∀ {id trace final}, write id trace = .complete final →
      DistinctIff graph protocol trace final)
    (inner : ∀ step ∈ steps, Protocol.Inner protocol node.children step)
    (performed : performAll protocol write steps trace = .complete final) :
    DistinctIff graph protocol trace final := by
  refine performAll_related .refl .trans ?_ performed
  intro step member first second performedStep
  rcases inner step member with glue | inside
  · exact .aside (Aside.perform glue performedStep)
  · exact writes performedStep

private theorem distinctIff_endTuple (trace : Trace) (id : NodeId) (count : Nat) :
    DistinctIff graph protocol trace (trace.endTuple protocol id count) := by
  rw [endTuple]
  split
  · exact .aside (.emit (protocol.getOpcode_plain _)
      (Aside.emitAll (protocol.dropOpcodes_plain count) .refl))
  · rename_i missing
    exact .trans (.aside (.emit (protocol.tupleOpcode_plain count) .refl))
      (distinctIff_own fun _ stored => stored missing)

/-- A set that is made of a list. It is stored by the steps before its slot exactly where it is
renewed. -/
private theorem distinctIff_oldSet
    (writes : ∀ {id trace final}, writeNode graph protocol depth id trace = .complete final →
      DistinctIff graph protocol trace final)
    (present : graph.node? id = some node) (old : Protocol.MadeOfList protocol node)
    (missing : ¬trace.Stored id)
    (inner : ∀ step ∈ steps, Protocol.Inner protocol node.children step)
    (opened : ∀ child ∈ node.children, .node child ∈ steps)
    (performed : performAll protocol (writeNode graph protocol depth) steps
      (trace.record (.begins id)) = .complete final) :
    DistinctIff graph protocol trace (final.remember protocol (some (.node id))) := by
  rcases old with ⟨before, items, rfl⟩
  have within := distinctIff_inner writes inner performed
  have cycle : final.Stored id ↔
      Relation.TransGen (Opens graph (trace.record (.begins id))) id id :=
    stored_iff_transGen present rfl missing inner opened performed
  -- Stored before its slot, the set has two slots and was renewed where it began. Or else it has
  -- one slot, like any node.
  by_cases stored : final.Stored id
  · have grows : Grows protocol trace (final.remember protocol (some (.node id))) :=
      .remember _ (.trans (.begins id .refl) within.grows)
    refine ⟨grows, fun coherent => iff_of_false ?_ ?_⟩
    · have begun : Grows protocol trace (trace.record (.begins id)) := .begins id .refl
      have coherentFinal := within.grows.coherent (begun.coherent coherent)
      rw [nodup_remember_node coherentFinal.faithful]
      exact fun distinct => distinct.2 stored
    · intro given
      rcases given with ⟨-, none⟩
      apply none trace.events.length id (Nat.le_refl _)
      · have begins := getElem?_record_begins trace id
        have bound := (List.getElem?_eq_some_iff.1 begins).1
        rwa [(Grows.remember (some (.node id)) within.grows).getElem?_events bound]
      · rw [grows.renewed_iff coherent (Nat.le_refl _), coherent.renewed_length]
        exact ⟨before, ⟨items, present⟩, cycle.1 stored⟩
  · have notRenewed (coherent : trace.Coherent) :
        ¬Renewed graph protocol trace trace.events.length id := by
      rw [coherent.renewed_length]
      intro given
      rcases given with ⟨-, -, path⟩
      exact stored (cycle.2 path)
    exact .trans (distinctIff_begins notRenewed)
      (.trans within (distinctIff_own fun _ => stored))

end Plan

/-- Between the beginning and the end of a node keys stay distinct exactly where no set is
renewed. -/
private theorem distinctIff_writeNode {depth : Nat} {id : NodeId} {trace final : Trace}
    (complete : writeNode graph protocol depth id trace = .complete final) :
    DistinctIff graph protocol trace final := by
  refine writeNode_induction (motive := fun _ => DistinctIff graph protocol) ?_ ?_ complete
  · intro id trace slot found
    have stored : trace.Stored id := by simp [Stored, found]
    refine .trans (distinctIff_begins fun coherent renewed => ?_)
      (.aside (.emit (protocol.getOpcode_plain slot) .refl))
    exact renewed.not_storedBefore ((coherent.storedBefore_length id).2 stored)
  · intro depth id node steps trace final writes missing present plan performed
    have unstored : ¬trace.Stored id := fun stored => stored missing
    have begins (newer : ¬Protocol.MadeOfList protocol node) :
        DistinctIff graph protocol trace (trace.record (.begins id)) := by
      refine distinctIff_begins fun _ renewed => newer ⟨renewed.1, ?_⟩
      rcases renewed.2.1 with ⟨items, found⟩
      exact ⟨items, Option.some.inj (present.symm.trans found)⟩
    have opened : ∀ child ∈ node.children, .node child ∈ steps :=
      fun child inside => Protocol.node_mem_plan plan inside
    -- Only a set in the old form takes its slot behind its items without looking for one before.
    cases Protocol.shape_of_plan plan with
    | scalar slotless glue =>
        refine .trans (begins ?_) (.aside (Aside.performAll glue performed))
        intro given
        rcases given with ⟨-, items, rfl⟩
        cases slotless
    | storedFirst takesSlot newer glue inner =>
        rcases performAll_append.1 performed with ⟨middle, performedGlue, performed⟩
        rcases performAll_cons.1 performed with ⟨later, own, performed⟩
        cases own
        have aside := Aside.performAll glue performedGlue
        refine .trans (begins newer) (.trans (.aside aside) (.trans (distinctIff_own ?_)
          (distinctIff_inner writes inner performed)))
        exact fun _ stored => unstored ((aside.stored id).1 stored)
    | oldSet old inner =>
        rcases performAll_append.1 performed with ⟨middle, performedInner, performed⟩
        cases performed
        refine distinctIff_oldSet writes present old unstored inner ?_ performedInner
        intro child inside
        simpa using opened child inside
    | tuple _ tuple inner =>
        rcases performAll_append.1 performed with ⟨middle, performedInner, performed⟩
        cases performed
        refine .trans (begins ?_) (.trans (distinctIff_inner writes inner performedInner)
          (distinctIff_endTuple middle id _))
        intro given
        rcases given with ⟨-, items, rfl⟩
        cases tuple

/-! ## Where nodes begin -/

/-- Where a node begins that has a slot, what follows is the opcode that fetches it from there. -/
def FetchedAt (protocol : Protocol) (trace : Trace) (index : Nat) (id : NodeId) : Prop :=
  trace.StoredBefore index id →
    ∃ slot < slotCount (trace.events.take index), trace.memo.slots[slot]? = some (some (.node id)) ∧
      trace.events[index + 1]? = some (.op (protocol.getOpcode slot))

private theorem FetchedAt.grows {trace final : Trace} {index : Nat} {id : NodeId}
    (grows : Grows protocol trace final) (coherent : trace.Coherent)
    (earlier : index < trace.events.length) (fetched : FetchedAt protocol trace index id) :
    FetchedAt protocol final index id := by
  intro stored
  rw [grows.storedBefore_iff coherent earlier.le] at stored
  rcases fetched stored with ⟨slot, given, held, get⟩
  have next : index + 1 < trace.events.length := (List.getElem?_eq_some_iff.1 get).1
  rw [grows.take_events earlier.le]
  exact ⟨slot, given, grows.slots held, (grows.getElem?_events next).trans get⟩

/-- Between two traces only nodes of a kind begin, and those that have a slot are fetched. -/
structure Meets (protocol : Protocol) (kind : NodeId → Prop) (trace final : Trace) : Prop where
  grows : Grows protocol trace final
  meets : trace.Coherent → ∀ index id, trace.events.length ≤ index →
    final.events[index]? = some (.begins id) → kind id ∧ FetchedAt protocol final index id

namespace Meets

variable {kind other : NodeId → Prop} {first second third : Trace}

private theorem aside (aside : Aside protocol first second) : Meets protocol kind first second where
  grows := aside.grows
  meets _ _ id later begins := absurd begins (aside.not_begins later id)

private theorem trans (left : Meets protocol kind first second)
    (right : Meets protocol kind second third) : Meets protocol kind first third where
  grows := left.grows.trans right.grows
  meets coherent index id later begins := by
    have coherentSecond := left.grows.coherent coherent
    by_cases earlier : index < second.events.length
    · rw [right.grows.getElem?_events earlier] at begins
      rcases left.meets coherent index id later begins with ⟨kind, fetched⟩
      exact ⟨kind, fetched.grows right.grows coherentSecond earlier⟩
    · exact right.meets coherentSecond index id (not_lt.1 earlier) begins

private theorem mono (imp : ∀ id, kind id → other id) (meets : Meets protocol kind first second) :
    Meets protocol other first second where
  grows := meets.grows
  meets coherent index id later begins :=
    (meets.meets coherent index id later begins).imp_left (imp id)

private theorem own (trace : Trace) (id : NodeId) :
    Meets protocol kind trace (trace.remember protocol (some (.node id))) where
  grows := .remember _ .refl
  meets _ index other later begins := by
    rw [events_remember] at begins
    exact absurd begins (not_begins_concat (not_begins_length _ later other) (by simp))

private theorem begins {id : NodeId} (own : kind id) (missing : ¬first.Stored id) :
    Meets protocol kind first (first.record (.begins id)) where
  grows := .begins id .refl
  meets coherent index other later begins := by
    rcases eq_of_record_begins later begins with ⟨rfl, rfl⟩
    refine ⟨own, fun stored => absurd ((coherent.storedBefore_length id).1 ?_) missing⟩
    have grows : Grows protocol first (first.record (.begins id)) := .begins id .refl
    exact (grows.storedBefore_iff coherent (Nat.le_refl _) id).1 stored

theorem fetched {id : NodeId} {slot : Nat} (own : kind id)
    (found : first.memo.find? (.node id) = some slot) :
    Meets protocol kind first
      ((first.record (.begins id)).emit (protocol.getOpcode slot)) where
  grows := .emit (protocol.getOpcode_plain slot) (.begins id .refl)
  meets coherent index other later begins := by
    have written : ((first.record (.begins id)).emit (protocol.getOpcode slot)).events =
        first.events ++ [.begins id, .op (protocol.getOpcode slot)] := by
      simp
    have bound := (List.getElem?_eq_some_iff.1 begins).1
    rw [written] at begins bound
    rw [List.length_append, List.length_cons, List.length_singleton] at bound
    rw [List.getElem?_append_right later] at begins
    have exactly : index = first.events.length := by
      by_contra different
      have last : index - first.events.length = 1 := by omega
      rw [last] at begins
      cases begins
    subst exactly
    rw [Nat.sub_self] at begins
    cases begins
    refine ⟨own, fun _ => ⟨slot, ?_, coherent.faithful.holds found, ?_⟩⟩
    · rw [written, List.take_left, coherent.counted]
      exact coherent.faithful.lt_next found
    · rw [written, List.getElem?_append_right (Nat.le_succ _), Nat.succ_sub (Nat.le_refl _),
        Nat.sub_self]
      rfl

end Meets

/-- Nodes that begin while a node is written are met from it, and fetched where they have a
slot. -/
private theorem meets_writeNode {depth : Nat} {id : NodeId} {trace final : Trace}
    (complete : writeNode graph protocol depth id trace = .complete final) :
    Meets protocol (graph.Reaches id) trace final := by
  refine writeNode_induction (motive := fun id => Meets protocol (graph.Reaches id)) ?_ ?_ complete
  · exact fun found => .fetched Relation.ReflTransGen.refl found
  · intro depth id node steps trace final writes missing present plan performed
    refine .trans (.begins Relation.ReflTransGen.refl fun stored => stored missing) ?_
    refine performAll_planned .trans .aside (fun inside written => ?_) (fun first => .own first id)
      (Protocol.planned_of_mem_plan plan) performed
    exact (writes written).mono fun other path =>
      Relation.ReflTransGen.head ⟨node, present, inside⟩ path

end Trace

/-! ## Whole values -/

namespace Graph

variable {graph : Graph} {protocol : Protocol} {root : NodeId} {trace : Trace}
  (complete : graph.trace protocol root = .complete trace)

include complete

private theorem grows_trace : Trace.Grows protocol {} trace :=
  .trans (.split .refl) (.writeNode complete)

theorem coherent_trace : trace.Coherent :=
  (grows_trace complete).coherent Trace.coherent_empty

/-- The keys with which slots are taken are distinct exactly where no set is renewed. -/
theorem nodup_keys_trace_iff : trace.memo.keys.Nodup ↔
    ∀ index id, trace.events[index]? = some (.begins id) →
      ¬Trace.Renewed graph protocol trace index id := by
  have split : Trace.DistinctIff graph protocol {} ({ : Trace }.record .split) :=
    .aside (.split .refl)
  have whole := (split.trans (Trace.distinctIff_writeNode complete)).distinct Trace.coherent_empty
  rw [whole]
  constructor
  · exact fun distinct index id begins => distinct.2 index id (Nat.zero_le _) begins
  · exact fun none => ⟨List.nodup_nil, fun index id _ begins => none index id begins⟩

theorem meets_trace {index : Nat} {id : NodeId}
    (begins : trace.events[index]? = some (.begins id)) :
    graph.Reaches root id ∧ Trace.FetchedAt protocol trace index id := by
  have split : Trace.Meets protocol (graph.Reaches root) {} ({ : Trace }.record .split) :=
    .aside (.split .refl)
  exact (split.trans (Trace.meets_writeNode complete)).meets Trace.coherent_empty index id
    (Nat.zero_le _) begins

/-- Everything that is met from the root has a slot in the end or takes none. -/
theorem settled_of_reaches {id : NodeId} (path : graph.Reaches root id) :
    Trace.Settled graph trace id := by
  have settles := Trace.settles_writeNode complete
  induction path with
  | refl => exact settles.settled
  | @tail middle last _ refers induction =>
      have stored := induction.resolve_right fun slotless => slotless.not_refersTo refers
      exact settles.children middle last stored (by simp [Trace.Stored]) refers

end Graph

end PickleTrial
