import PickleTrial.Proofs.Encoding.Framing

/-! Where nodes begin. The value itself, and every item of a list or tuple, begins where a frame may
end, so that the open frame is never full there. The keys and values of a dict, and from protocol 4
on the items of a set, begin wherever they stand: there the open frame holds what was open when a
frame could last end, and whatever was written since. -/

namespace PickleTrial

namespace Protocol

variable {protocol : Protocol} {id : NodeId} {node : Node} {first second steps : List Step}
  {items : List (List Step)}

/-- Whether the nodes within a node begin where no frame may end. -/
def beginsBare (protocol : Protocol) : Node → Bool
  | .dict _ => true
  | .set _ => 4 ≤ protocol.version
  | _ => false

/-- Steps in which every node stands right behind a place where a frame may end. -/
inductive Fronted : List Step → Prop
  | nil : Fronted []
  | step {step : Step} {rest : List Step} : (∀ id, step ≠ .node id) → Fronted rest →
      Fronted (step :: rest)
  | node {id : NodeId} {rest : List Step} : Fronted rest →
      Fronted (.split :: .node id :: rest)

namespace Fronted

private theorem append (left : Fronted first) (right : Fronted second) :
    Fronted (first ++ second) := by
  induction left with
  | nil => exact right
  | step other _ induction => exact .step other induction
  | node _ induction => exact .node induction

private theorem of_forall_ne (noNode : ∀ step ∈ steps, ∀ id, step ≠ .node id) : Fronted steps := by
  induction steps with
  | nil => exact .nil
  | cons step rest induction =>
      have parts := List.forall_mem_cons.1 noNode
      exact .step parts.1 (induction parts.2)

private theorem additive : Additive Fronted :=
  ⟨.nil, fun opcode => of_forall_ne (by simp), append⟩

section Items

variable (inItems : ∀ item ∈ items, Fronted (.split :: item))

include inItems

private theorem tupleItems : Fronted (protocol.tupleItems items) := by
  refine append ?_ (additive.flatMap inItems)
  split <;> exact of_forall_ne (by simp)

private theorem list (key : Option MemoKey) : Fronted (protocol.list items key) := by
  refine append ?_ (additive.additions fun item listed => ?_)
  · split <;> exact of_forall_ne (by simp)
  · rcases List.mem_map.1 listed with ⟨inner, inside, rfl⟩
    exact inItems inner inside

private theorem call (callable : Callable) (key : Option MemoKey) :
    Fronted (protocol.call callable items key) := by
  have arguments : Fronted (protocol.arguments items) := by
    rw [Protocol.arguments]
    split
    · exact of_forall_ne fun step member id same => by
        cases same ▸ glue_emptyTuple step member
    · exact (tupleItems inItems).append (of_forall_ne (by simp))
  exact .step (by simp) (arguments.append (of_forall_ne (by simp)))

end Items

/-- A node within stands behind a place where a frame may end. -/
private theorem exists_split {before after : List Step} {child : NodeId} (fronted : Fronted steps)
    (same : steps = before ++ .node child :: after) : ∃ earlier, before = earlier ++ [.split] := by
  induction fronted generalizing before with
  | nil => cases before <;> cases same
  | step other _ induction =>
      cases before with
      | nil =>
          cases same
          exact absurd rfl (other child)
      | cons _ before =>
          cases same
          rcases induction rfl with ⟨earlier, rfl⟩
          exact ⟨_ :: earlier, rfl⟩
  | node _ induction =>
      cases before with
      | nil => cases same
      | cons head before =>
          cases before with
          | nil =>
              cases same
              exact ⟨[], rfl⟩
          | cons next before =>
              cases same
              rcases induction rfl with ⟨earlier, rfl⟩
              exact ⟨_ :: _ :: earlier, rfl⟩

end Fronted

/-- The items of lists and tuples, and those of sets that are made of a list, begin where a frame
may end. -/
private theorem fronted_of_plan (plan : protocol.plan id node = .ok steps)
    (notBare : protocol.beginsBare node = false) : Fronted steps := by
  have nodeItems (children : List NodeId) :
      ∀ item ∈ children.map fun child => [Step.node child], Fronted (.split :: item) := by
    intro item listed
    rcases List.mem_map.1 listed with ⟨child, -, rfl⟩
    exact .node .nil
  have childless (none : node.children = []) : Fronted steps := by
    refine .of_forall_ne fun step member child same => ?_
    subst same
    have inside := mem_children_of_plan plan member
    rw [none] at inside
    cases inside
  cases hasPlan_of_plan plan with
  | tuple nonempty =>
      exact (Fronted.tupleItems (nodeItems _)).append (.of_forall_ne (by simp))
  | list items => exact .list (nodeItems items) _
  | set items =>
      have old : ¬4 ≤ protocol.version := by simpa [beginsBare] using notBare
      rw [set, if_neg old]
      refine .call ?_ .set _
      simp only [List.forall_mem_singleton]
      exact .step (by simp) (.list (nodeItems items) none)
  | dict entries => cases notBare
  | _ => exact childless rfl

end Protocol

/-! ## What the open piece holds -/

namespace Piece

private theorem size_append (first second : Piece) :
    size (first ++ second) = size first + size second := by
  rw [← length_content, ← length_content, ← length_content, content, List.flatMap_append,
    List.length_append]
  rfl

end Piece

namespace Pieces

/-- The events since a piece could last be complete, behind those up to there. By then the open
piece was not full. -/
structure Since (events earlier since : List Event) : Prop where
  whole : events = earlier ++ since
  unbroken : .split ∉ since
  place : earlier = [] ∨ ∃ before, earlier = before ++ [.split]
  small : (ofEvents earlier).openSize < Piece.targetSize
  opened : (ofEvents events).opened.reverse =
    (ofEvents earlier).opened.reverse ++ since.filterMap Event.opcode?

private theorem openSize_concat_split_lt (events : List Event) :
    (ofEvents (events ++ [.split])).openSize < Piece.targetSize := by
  rw [ofEvents_concat, add]
  split
  · assumption
  · rename_i large
    have nonempty : (ofEvents events).opened ≠ [] := by
      intro empty
      rw [(cut_ofEvents events).size, empty] at large
      exact large (by decide)
    rw [close, if_neg nonempty]
    exact Nat.zero_lt_succ _

private theorem exists_since (events : List Event) :
    ∃ earlier since, Since events earlier since := by
  induction events using List.reverseRecOn with
  | nil => exact ⟨[], [], rfl, List.not_mem_nil, Or.inl rfl, by decide, rfl⟩
  | append_singleton events event induction =>
      rcases induction with ⟨earlier, since, given⟩
      have later (noSplit : event ≠ .split)
          (opened : (ofEvents (events ++ [event])).opened.reverse =
            (ofEvents events).opened.reverse ++ [event].filterMap Event.opcode?) :
          ∃ earlier since, Since (events ++ [event]) earlier since := by
        refine ⟨earlier, since ++ [event], ?_, ?_, given.place, given.small, ?_⟩
        · rw [given.whole, List.append_assoc]
        · rw [List.mem_append, List.mem_singleton]
          exact not_or.2 ⟨given.unbroken, noSplit.symm⟩
        · rw [opened, given.opened, List.filterMap_append, List.append_assoc]
      cases event with
      | split =>
          exact ⟨events ++ [.split], [], (List.append_nil _).symm, List.not_mem_nil,
            Or.inr ⟨events, rfl⟩, openSize_concat_split_lt events, (List.append_nil _).symm⟩
      | begins id =>
          refine later (by simp) ?_
          rw [ofEvents_concat]
          exact (List.append_nil _).symm
      | op opcode =>
          refine later (by simp) ?_
          rw [ofEvents_concat]
          exact List.reverse_cons

theorem Since.openSize {events earlier since : List Event} (given : Since events earlier since) :
    (ofEvents events).openSize =
      (ofEvents earlier).openSize + Piece.size (since.filterMap Event.opcode?) := by
  rw [(cut_ofEvents events).size, given.opened, Piece.size_append, ← (cut_ofEvents earlier).size]

/-- A complete piece was the open piece at a place where it could be complete. -/
private theorem exists_split_of_mem {events : List Event} {piece : Piece}
    (member : piece ∈ (ofEvents events).toList) :
    ∃ before after, events = before ++ .split :: after ∧
      piece = (ofEvents before).opened.reverse := by
  induction events using List.reverseRecOn with
  | nil => cases member
  | append_singleton events event induction =>
      have earlier (inside : piece ∈ (ofEvents events).toList) :
          ∃ before after, events ++ [event] = before ++ .split :: after ∧
            piece = (ofEvents before).opened.reverse := by
        rcases induction inside with ⟨before, after, rfl, same⟩
        exact ⟨before, after ++ [event], by rw [List.append_assoc, List.cons_append], same⟩
      rw [ofEvents_concat] at member
      cases event with
      | begins | op => exact earlier member
      | split =>
          rw [add] at member
          split at member
          · exact earlier member
          · by_cases empty : (ofEvents events).opened = []
            · rw [close, if_pos empty] at member
              exact earlier member
            · rw [toList_close empty] at member
              rcases List.mem_append.1 member with inside | last
              · exact earlier inside
              · exact ⟨events, [], rfl, List.mem_singleton.1 last⟩

end Pieces

/-! ## Where nodes begin -/

namespace Trace

variable {graph : Graph} {protocol : Protocol} {root : NodeId}

private theorem opened_emit_ne (trace : Trace) (opcode : Opcode) :
    (Pieces.ofEvents (trace.emit opcode).events).opened ≠ [] := by
  rw [events_emit, Pieces.ofEvents_concat]
  exact List.cons_ne_nil _ _

/-- Where the encoding of a value comes to a node, and the node that holds it: to the value itself,
and to every node within another behind the steps that are in front of it in the plan. -/
inductive Starts (graph : Graph) (protocol : Protocol) (root : NodeId) :
    Option Node → NodeId → Trace → Prop
  | root : Starts graph protocol root none root start
  | within {holder : Option Node} {id child : NodeId} {node : Node} {trace middle : Trace}
      {depth : Nat} {before after : List Step} : Starts graph protocol root holder id trace →
      trace.memo.find? (.node id) = none → graph.node? id = some node →
      protocol.plan id node = .ok (before ++ .node child :: after) →
      performAll protocol (writeNode graph protocol depth) before (trace.record (.begins id)) =
        .complete middle →
      Starts graph protocol root (some node) child middle

/-- Outside of dicts and sets a node begins right behind a place where a piece may be complete. -/
private theorem Starts.exists_split {holder : Option Node} {id : NodeId} {trace : Trace}
    (starts : Starts graph protocol root holder id trace)
    (notBare : holder.any protocol.beginsBare = false) :
    ∃ earlier, trace.events = earlier ++ [.split] := by
  cases starts with
  | root => exact ⟨[], rfl⟩
  | within _ _ _ plan performed =>
      rcases (Protocol.fronted_of_plan plan notBare).exists_split rfl with ⟨earlier, rfl⟩
      rcases performAll_append.1 performed with ⟨middle, -, last⟩
      cases last
      exact ⟨middle.events, events_record _ _⟩

/-- Every node that begins among the events begins at one of the places given. -/
def Located (places : NodeId → Trace → Prop) (events : List Event) : Prop :=
  ∀ (index : Nat) (id : NodeId), events[index]? = some (.begins id) →
    ∃ before, places id before ∧ before.events = events.take index

namespace Located

variable {places : NodeId → Trace → Prop} {trace final : Trace}

private theorem record (located : Located places trace.events) {event : Event}
    (place : ∀ id, event = .begins id → places id trace) :
    Located places (trace.record event).events := by
  intro index id begins
  rw [events_record] at begins ⊢
  rcases Nat.lt_or_ge index trace.events.length with inside | outside
  · rw [List.getElem?_append_left inside] at begins
    rw [List.take_append_of_le_length (Nat.le_of_lt inside)]
    exact located index id begins
  · rw [List.getElem?_append_right outside] at begins
    rcases List.getElem?_eq_some_iff.1 begins with ⟨first, same⟩
    have last : index = trace.events.length := by
      simp only [List.length_singleton] at first
      omega
    subst last
    refine ⟨trace, place id (by simpa using same), ?_⟩
    exact List.take_left.symm

theorem quiet (located : Located places trace.events) (opcode : Opcode) :
    Located places (trace.emit opcode).events :=
  located.record fun _ same => nomatch same

private theorem remember (located : Located places trace.events) (key : Option MemoKey) :
    Located places (trace.remember protocol key).events :=
  located.quiet (protocol.putOpcode trace.memo.next)

private theorem aside (located : Located places trace.events) (aside : Aside protocol trace final) :
    Located places final.events := by
  induction aside with
  | refl => exact located
  | split _ induction => exact induction.record fun _ same => nomatch same
  | emit _ _ induction => exact induction.quiet _
  | fresh _ induction => exact induction.remember _
  | shared _ _ _ induction => exact induction.remember _

end Located

/-- The steps of a plan keep the nodes located, where the nodes among them do. -/
private theorem Located.performAll {places : NodeId → Trace → Prop}
    {write : NodeId → Trace → Outcome}
    {id : NodeId} {node : Node} {steps rest before : List Step} {begun trace : Trace}
    (planned : ∀ step ∈ steps, Protocol.Planned protocol id node step)
    (child : ∀ {before child after middle}, steps = before ++ .node child :: after →
      Trace.performAll protocol write before begun = .complete middle →
      Located places middle.events → Located places (write child middle).trace.events)
    (whole : steps = before ++ rest)
    (performed : Trace.performAll protocol write before begun = .complete trace)
    (located : Located places trace.events) :
    Located places (Trace.performAll protocol write rest trace).trace.events := by
  induction rest generalizing before trace with
  | nil => exact located
  | cons step rest induction =>
      have next {middle : Trace} (done : trace.perform protocol write step = .complete middle)
          (located : Located places middle.events) :
          Located places (Trace.performAll protocol write (step :: rest) trace).trace.events := by
        have whole : steps = (before ++ [step]) ++ rest := by
          rw [whole, List.append_assoc, List.singleton_append]
        rw [Trace.performAll, done]
        exact induction whole (performAll_append.2 ⟨trace, performed,
          performAll_cons.2 ⟨middle, done, rfl⟩⟩) located
      have member : step ∈ steps := whole ▸ List.mem_append_right _ List.mem_cons_self
      -- Only a node may fail, and what is written of it up to there is located all the same.
      rcases planned step member with (glue | inside) | _ | count
      · have done : ∃ middle, trace.perform protocol write step = .complete middle := by
          cases glue <;> exact ⟨_, rfl⟩
        rcases done with ⟨middle, done⟩
        exact next done (located.aside (Aside.perform glue done))
      · have written := child whole performed located
        cases done : write _ trace with
        | complete middle =>
            rw [done] at written
            exact next done written
        | failed error final =>
            rw [done] at written
            rw [Trace.performAll, perform, done]
            exact written
      · exact next rfl (located.remember _)
      · refine next rfl ?_
        rw [endTuple]
        split
        · exact located.aside (.emit (protocol.getOpcode_plain _)
            (Aside.emitAll (protocol.dropOpcodes_plain count) .refl))
        · exact (located.quiet _).remember _

/-- Every node that begins while a node is written begins where the encoding comes to it. -/
private theorem Starts.located_writeNode {depth : Nat} {holder : Option Node} {id : NodeId}
    {trace : Trace} (starts : Starts graph protocol root holder id trace)
    (located : Located (fun id before => ∃ holder, Starts graph protocol root holder id before)
      trace.events) :
    Located (fun id before => ∃ holder, Starts graph protocol root holder id before)
      (writeNode graph protocol depth id trace).trace.events := by
  induction depth generalizing holder id trace with
  | zero => exact located
  | succ depth induction =>
      have begun : Located (fun id before => ∃ holder, Starts graph protocol root holder id before)
          (trace.record (.begins id)).events := by
        refine located.record fun other same => ?_
        cases same
        exact ⟨holder, starts⟩
      cases entered : enter graph protocol id trace with
      | decided outcome =>
          rw [writeNode_of_decided entered]
          rw [enter] at entered
          split at entered
          · cases entered
            exact begun.quiet _
          · cases entered
            exact begun
          · split at entered
            · cases entered
              exact begun
            · cases entered
      | planned steps =>
          rw [writeNode_of_planned entered]
          rcases enter_planned.1 entered with ⟨missing, node, present, plan⟩
          refine begun.performAll (Protocol.planned_of_mem_plan plan) ?_ (List.nil_append _).symm
            rfl
          intro before child after middle whole performed located
          subst whole
          exact induction (starts.within missing present plan performed) located

end Trace

namespace Graph

variable {graph : Graph} {protocol : Protocol} {root : NodeId}

/-- How a trace is cut into pieces with regard to its nodes. -/
structure CutAtNodes (graph : Graph) (protocol : Protocol) (root : NodeId) (trace : Trace) :
    Prop where
  /-- Where a node begins, the open piece holds less than a complete one, unless a dict holds the
  node, or a set from protocol 4 on, and enough has been written since a piece could last be
  complete. -/
  starts : ∀ (index : Nat) (id : NodeId), trace.events[index]? = some (.begins id) →
    ∃ holder before, Trace.Starts graph protocol root holder id before ∧
      before.events = trace.events.take index ∧
        ∃ earlier since, Pieces.Since before.events earlier since ∧
          (Piece.targetSize ≤ (Pieces.ofEvents before.events).openSize ↔
            holder.any protocol.beginsBare ∧ Piece.targetSize ≤
              (Pieces.ofEvents earlier).openSize + Piece.size (since.filterMap Event.opcode?))
  /-- A piece holds less than a complete one, and what is written behind that up to the next place
  where a piece may be complete. -/
  pieces : ∀ piece ∈ trace.pieces, ∃ before after earlier since,
    (trace.emit .stop).events = before ++ after ∧ (after = [] ∨ after.head? = some .split) ∧
      Pieces.Since before earlier since ∧
        piece = (Pieces.ofEvents earlier).opened.reverse ++ since.filterMap Event.opcode?

/-- However far an encoding comes, it is cut into pieces at its nodes. -/
theorem cutAtNodes (graph : Graph) (protocol : Protocol) (root : NodeId) (depth : Nat) :
    CutAtNodes graph protocol root
      (Trace.writeNode graph protocol depth root Trace.start).trace where
  starts index id begins := by
    have located : Trace.Located
        (fun id before => ∃ holder, Trace.Starts graph protocol root holder id before)
          Trace.start.events := by
      intro index id begins
      cases List.mem_singleton.1 (List.mem_of_getElem? begins)
    rcases Trace.Starts.root.located_writeNode located index id begins with
      ⟨before, ⟨holder, starts⟩, same⟩
    rcases Pieces.exists_since before.events with ⟨earlier, since, given⟩
    refine ⟨holder, before, starts, same, earlier, since, given, ?_⟩
    rw [← given.openSize]
    refine ⟨fun full => ⟨?_, full⟩, And.right⟩
    by_contra notBare
    rcases starts.exists_split (Bool.eq_false_iff.2 notBare) with ⟨events, ends⟩
    rw [ends] at full
    exact Nat.not_lt.2 full (Pieces.openSize_concat_split_lt events)
  pieces piece member := by
    have closed (before : List Event) : ∃ earlier since, Pieces.Since before earlier since ∧
        (Pieces.ofEvents before).opened.reverse =
          (Pieces.ofEvents earlier).opened.reverse ++ since.filterMap Event.opcode? := by
      rcases Pieces.exists_since before with ⟨earlier, since, given⟩
      exact ⟨earlier, since, given, given.opened⟩
    rw [Trace.pieces, Pieces.toList_close (Trace.opened_emit_ne _ _)] at member
    rcases List.mem_append.1 member with inside | last
    · rcases Pieces.exists_split_of_mem inside with ⟨before, after, whole, rfl⟩
      rcases closed before with ⟨earlier, since, given, same⟩
      exact ⟨before, _, earlier, since, whole, Or.inr rfl, given, same⟩
    · rcases closed _ with ⟨earlier, since, given, same⟩
      rw [← List.mem_singleton.1 last] at same
      exact ⟨_, [], earlier, since, (List.append_nil _).symm, Or.inl rfl, given, same⟩

/-- A byte string and a number in a set. -/
def bytesAndNumber (payload : Bytes) : Graph :=
  ⟨#[.bytes payload, .int 1, .set [0, 1]]⟩

/-- What is written in front of the number. -/
def aheadOfNumber (payload : Bytes) : List Event :=
  [.split, .begins 2, .op .emptySet, .op .memoize, .op .mark, .begins 0,
    .op (Protocol.bytesOpcode ⟨4, by decide⟩ payload), .op .memoize]

private theorem events_bytesAndNumber (payload : Bytes) :
    ((bytesAndNumber payload).trace ⟨4, by decide⟩ 2).trace.events =
      aheadOfNumber payload ++ [.begins 1, .op (.binInt1 1), .op .addItems] :=
  rfl

private theorem le_openSize_aheadOfNumber {payload : Bytes}
    (large : Piece.targetSize ≤ payload.length) :
    Piece.targetSize ≤ (Pieces.ofEvents (aheadOfNumber payload)).openSize := by
  have counted (code : UInt8) (width : Nat) :
      payload.length ≤ (code :: Opcode.counted width payload).length := by
    rw [List.length_cons, Opcode.counted, List.length_append]
    omega
  have within : payload.length ≤ (Protocol.bytesOpcode ⟨4, by decide⟩ payload).size := by
    rw [← Opcode.length_bytes, Protocol.bytesOpcode]
    split
    · exact counted _ 1
    · split
      · exact counted _ 8
      · exact counted _ 4
  change _ ≤ 0 + 1 + 1 + 1 + (Protocol.bytesOpcode ⟨4, by decide⟩ payload).size + 1
  omega

/-- Behind 64 KiB of bytes in a set, a number begins in a piece that is large enough to be
complete. -/
theorem exists_start_in_full_piece :
    ∃ holder before,
      Trace.Starts (bytesAndNumber (List.replicate 65536 0)) ⟨4, by decide⟩ 2 holder 1 before ∧
        holder.any (Protocol.beginsBare ⟨4, by decide⟩) ∧
          Piece.targetSize ≤ (Pieces.ofEvents before.events).openSize := by
  have cut := cutAtNodes (bytesAndNumber (List.replicate 65536 0)) ⟨4, by decide⟩ 2
    (bytesAndNumber (List.replicate 65536 0)).depthBound
  rcases cut.starts 8 1 (congrArg (·[8]?) (events_bytesAndNumber _)) with
    ⟨holder, before, starts, ahead, earlier, since, -, full⟩
  have large : Piece.targetSize ≤ (Pieces.ofEvents before.events).openSize := by
    rw [ahead]
    refine (le_openSize_aheadOfNumber ?_).trans_eq
      (congrArg (fun events => (Pieces.ofEvents (events.take 8)).openSize)
        (events_bytesAndNumber _).symm)
    rw [List.length_replicate]
    rfl
  exact ⟨holder, before, starts, (full.1 large).1, large⟩

end Graph

end PickleTrial
