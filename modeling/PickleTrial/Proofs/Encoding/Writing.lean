import PickleTrial.Proofs.Encoding.Memo
import PickleTrial.Proofs.Encoding.Plans

/-! What is true of every encoding that comes to its end. A node is either fetched or written by
its plan, and whatever holds of both holds of any node. What is written only grows: events are
added behind those there are, and slots behind the slots taken before. -/

namespace PickleTrial

def Event.opcode? : Event → Option Opcode
  | .op opcode => some opcode
  | _ => none

namespace Trace

def opcodes (trace : Trace) : List Opcode :=
  trace.events.filterMap Event.opcode?

@[simp] theorem events_record (trace : Trace) (event : Event) :
    (trace.record event).events = trace.events ++ [event] := by
  simp [events, record]

@[simp] theorem events_emit (trace : Trace) (opcode : Opcode) :
    (trace.emit opcode).events = trace.events ++ [.op opcode] :=
  events_record trace (.op opcode)

@[simp] theorem events_remember (trace : Trace) (protocol : Protocol) (key : Option MemoKey) :
    (trace.remember protocol key).events =
      trace.events ++ [.op (protocol.putOpcode trace.memo.next)] :=
  events_emit trace _

@[simp] theorem opcodes_split (trace : Trace) :
    (trace.record .split).opcodes = trace.opcodes := by
  simp [opcodes, Event.opcode?]

@[simp] theorem opcodes_begins (trace : Trace) (id : NodeId) :
    (trace.record (.begins id)).opcodes = trace.opcodes := by
  simp [opcodes, Event.opcode?]

@[simp] theorem opcodes_emit (trace : Trace) (opcode : Opcode) :
    (trace.emit opcode).opcodes = trace.opcodes ++ [opcode] := by
  simp [opcodes, Event.opcode?]

@[simp] theorem opcodes_remember (trace : Trace) (protocol : Protocol) (key : Option MemoKey) :
    (trace.remember protocol key).opcodes =
      trace.opcodes ++ [protocol.putOpcode trace.memo.next] :=
  opcodes_emit trace _

@[simp] theorem opcodes_emitAll (trace : Trace) (opcodes : List Opcode) :
    (trace.emitAll opcodes).opcodes = trace.opcodes ++ opcodes := by
  induction opcodes generalizing trace with
  | nil => simp [emitAll]
  | cons opcode rest induction =>
      have later := induction (trace.emit opcode)
      simp only [emitAll, List.foldl_cons] at later ⊢
      rw [later, opcodes_emit, List.append_assoc]
      rfl

@[simp] theorem memo_record (trace : Trace) (event : Event) :
    (trace.record event).memo = trace.memo := rfl

@[simp] theorem memo_emit (trace : Trace) (opcode : Opcode) :
    (trace.emit opcode).memo = trace.memo := rfl

@[simp] theorem memo_remember (trace : Trace) (protocol : Protocol) (key : Option MemoKey) :
    (trace.remember protocol key).memo = trace.memo.take key := rfl

@[simp] theorem memo_emitAll (trace : Trace) (opcodes : List Opcode) :
    (trace.emitAll opcodes).memo = trace.memo := by
  induction opcodes generalizing trace with
  | nil => rfl
  | cons opcode rest induction => exact induction (trace.emit opcode)

variable {graph : Graph} {protocol : Protocol} {write : NodeId → Trace → Outcome}

def Outcome.trace : Outcome → Trace
  | .complete trace => trace
  | .failed _ trace => trace

/-! ## Steps in sequence -/

theorem performAll_cons {step : Step} {rest : List Step} {trace final : Trace} :
    performAll protocol write (step :: rest) trace = .complete final ↔
      ∃ middle, trace.perform protocol write step = .complete middle ∧
        performAll protocol write rest middle = .complete final := by
  rw [performAll]
  cases trace.perform protocol write step <;> simp

theorem performAll_append {first second : List Step} {trace final : Trace} :
    performAll protocol write (first ++ second) trace = .complete final ↔
      ∃ middle, performAll protocol write first trace = .complete middle ∧
        performAll protocol write second middle = .complete final := by
  induction first generalizing trace with
  | nil => simp [performAll]
  | cons step rest induction =>
      simp only [List.cons_append, performAll_cons, induction]
      constructor
      · intro given
        rcases given with ⟨middle, performed, later, first, second⟩
        exact ⟨later, ⟨middle, performed, first⟩, second⟩
      · intro given
        rcases given with ⟨later, ⟨middle, performed, first⟩, second⟩
        exact ⟨middle, performed, later, first, second⟩

/-- What every step of a sequence does to a trace, and what follows from doing it repeatedly, is
done by the sequence. -/
theorem performAll_related {related : Trace → Trace → Prop} (refl : ∀ trace, related trace trace)
    (trans : ∀ {first second third}, related first second → related second third →
      related first third)
    {steps : List Step}
    (perform : ∀ step ∈ steps, ∀ {trace final},
      trace.perform protocol write step = .complete final → related trace final)
    {trace final : Trace} (performed : performAll protocol write steps trace = .complete final) :
    related trace final := by
  induction steps generalizing trace with
  | nil =>
      cases performed
      exact refl _
  | cons step rest induction =>
      rcases performAll_cons.1 performed with ⟨middle, first, second⟩
      exact trans (perform step List.mem_cons_self first)
        (induction (fun step member => perform step (List.mem_cons_of_mem _ member)) second)

/-- To show something of every node that is written to its end, show it of a node that is fetched,
and of a node whose plan is carried out where it holds of the nodes within. -/
theorem writeNode_induction {motive : NodeId → Trace → Trace → Prop}
    (fetched : ∀ {id trace slot}, trace.memo.find? (.node id) = some slot →
      motive id trace ((trace.record (.begins id)).emit (protocol.getOpcode slot)))
    (written : ∀ {depth id node steps trace final},
      (∀ {id trace final}, writeNode graph protocol depth id trace = .complete final →
        motive id trace final) →
      trace.memo.find? (.node id) = none → graph.node? id = some node →
      protocol.plan id node = .ok steps →
      performAll protocol (writeNode graph protocol depth) steps (trace.record (.begins id)) =
        .complete final →
      motive id trace final)
    {depth : Nat} {id : NodeId} {trace final : Trace}
    (complete : writeNode graph protocol depth id trace = .complete final) :
    motive id trace final := by
  induction depth generalizing id trace final with
  | zero => cases complete
  | succ depth induction =>
      simp only [writeNode] at complete
      split at complete
      · rename_i slot found
        cases complete
        exact fetched found
      · rename_i missing
        split at complete
        · cases complete
        · rename_i node present
          split at complete
          · cases complete
          · rename_i steps planned
            exact written induction missing present planned complete

/-! ## Growth -/

/-- A trace reached from another by telling where frames may end and nodes begin, by writing
opcodes that leave the memo alone, and by giving slots. -/
inductive Grows (protocol : Protocol) (trace : Trace) : Trace → Prop
  | refl : Grows protocol trace trace
  | split {middle : Trace} : Grows protocol trace middle →
      Grows protocol trace (middle.record .split)
  | begins {middle : Trace} (id : NodeId) : Grows protocol trace middle →
      Grows protocol trace (middle.record (.begins id))
  | emit {middle : Trace} {opcode : Opcode} (plain : opcode.Plain protocol) :
      Grows protocol trace middle → Grows protocol trace (middle.emit opcode)
  | remember {middle : Trace} (key : Option MemoKey) : Grows protocol trace middle →
      Grows protocol trace (middle.remember protocol key)

namespace Grows

theorem trans {first second third : Trace} (left : Grows protocol first second)
    (right : Grows protocol second third) : Grows protocol first third := by
  induction right with
  | refl => exact left
  | split _ induction => exact induction.split
  | begins id _ induction => exact induction.begins id
  | emit plain _ induction => exact induction.emit plain
  | remember key _ induction => exact induction.remember key

end Grows

/-- A trace reached without meeting a node: the slots given on the way have no key, or that of a
callable or a shared string that had none. -/
inductive Aside (protocol : Protocol) (trace : Trace) : Trace → Prop
  | refl : Aside protocol trace trace
  | split {middle : Trace} : Aside protocol trace middle →
      Aside protocol trace (middle.record .split)
  | emit {middle : Trace} {opcode : Opcode} (plain : opcode.Plain protocol) :
      Aside protocol trace middle → Aside protocol trace (middle.emit opcode)
  | fresh {middle : Trace} : Aside protocol trace middle →
      Aside protocol trace (middle.remember protocol none)
  | shared {middle : Trace} {key : MemoKey} (noNode : ∀ id, key ≠ .node id)
      (missing : middle.memo.find? key = none) : Aside protocol trace middle →
      Aside protocol trace (middle.remember protocol (some key))

namespace Aside

private theorem trans {first second third : Trace} (left : Aside protocol first second)
    (right : Aside protocol second third) : Aside protocol first third := by
  induction right with
  | refl => exact left
  | split _ induction => exact induction.split
  | emit plain _ induction => exact induction.emit plain
  | fresh _ induction => exact induction.fresh
  | shared noNode missing _ induction => exact induction.shared noNode missing

theorem grows {trace final : Trace} (aside : Aside protocol trace final) :
    Grows protocol trace final := by
  induction aside with
  | refl => exact .refl
  | split _ induction => exact induction.split
  | emit plain _ induction => exact induction.emit plain
  | fresh _ induction => exact induction.remember none
  | shared _ _ _ induction => exact induction.remember _

theorem emitAll {trace middle : Trace} {opcodes : List Opcode}
    (plain : ∀ opcode ∈ opcodes, opcode.Plain protocol) (aside : Aside protocol trace middle) :
    Aside protocol trace (middle.emitAll opcodes) := by
  induction opcodes generalizing middle with
  | nil => exact aside
  | cons opcode rest induction =>
      have later := List.forall_mem_cons.1 plain
      exact induction later.2 (.emit later.1 aside)

private theorem freshText (trace : Trace) (content : String) :
    Aside protocol trace (trace.freshText protocol content) :=
  (refl.emit (protocol.textOpcode_plain content)).fresh

theorem sharedText (trace : Trace) (content : String) :
    Aside protocol trace (trace.sharedText protocol content) := by
  rw [Trace.sharedText, fetchOr]
  split
  · exact refl.emit (protocol.getOpcode_plain _)
  · rename_i missing
    exact (refl.emit (protocol.textOpcode_plain content)).shared (by simp) missing

private theorem stackedNames (trace : Trace) (callable : Callable) (recent : 4 ≤ protocol.version) :
    Aside protocol trace (trace.stackedNames protocol callable) := by
  refine emit (.bare recent rfl trivial rfl rfl) (trans (split ?_) (freshText _ _))
  split
  · exact trans refl.split (freshText _ _)
  · exact trans refl.split (sharedText _ _)

private theorem find?_stackedNames (trace : Trace) (callable other : Callable) :
    (trace.stackedNames protocol callable).memo.find? (.callable other) =
      trace.memo.find? (.callable other) := by
  simp only [Trace.stackedNames, Trace.freshText, Trace.sharedText, fetchOr, memo_emit,
    memo_remember, memo_record, Memo.find?_take_none]
  split
  · simp
  · split
    · simp
    · rw [memo_remember, Memo.find?_take_of_ne _ (by simp)]
      simp

theorem callable (trace : Trace) (callable : Callable) :
    Aside protocol trace (trace.callable protocol callable) := by
  rw [Trace.callable, fetchOr]
  split
  · exact refl.emit (protocol.getOpcode_plain _)
  · rename_i missing
    split
    · refine shared (by simp) ?_ (stackedNames _ _ (by assumption))
      rw [find?_stackedNames, missing]
    · exact shared (by simp) missing (refl.emit (protocol.globalOpcode_plain callable))

theorem perform {step : Step} (glue : Protocol.Glue protocol step) {trace final : Trace}
    (performed : trace.perform protocol write step = .complete final) :
    Aside protocol trace final := by
  cases glue with
  | split =>
      cases performed
      exact refl.split
  | op plain =>
      cases performed
      exact refl.emit plain
  | fresh =>
      cases performed
      exact refl.fresh
  | sharedText content =>
      cases performed
      exact sharedText _ _
  | callable callable =>
      cases performed
      exact Aside.callable _ _

theorem performAll {steps : List Step} (glue : ∀ step ∈ steps, Protocol.Glue protocol step)
    {trace final : Trace} (performed : performAll protocol write steps trace = .complete final) :
    Aside protocol trace final :=
  performAll_related (fun _ => refl) trans (fun step member _ _ => perform (glue step member))
    performed

end Aside

/-- What is done without meeting a node, by writing the nodes within, and by giving a node its slot,
is done by carrying out the plan of the node. -/
theorem performAll_planned {related : Trace → Trace → Prop}
    (trans : ∀ {first second third}, related first second → related second third →
      related first third)
    (aside : ∀ {first second}, Aside protocol first second → related first second)
    {id : NodeId} {node : Node}
    (child : ∀ {child first second}, child ∈ node.children →
      write child first = .complete second → related first second)
    (own : ∀ trace : Trace, related trace (trace.remember protocol (some (.node id))))
    {steps : List Step} (planned : ∀ step ∈ steps, Protocol.Planned protocol id node step)
    {trace final : Trace} (performed : performAll protocol write steps trace = .complete final) :
    related trace final := by
  refine performAll_related (fun _ => aside .refl) trans ?_ performed
  intro step member first second performedStep
  rcases planned step member with (glue | inside) | _ | count
  · exact aside (Aside.perform glue performedStep)
  · exact child inside performedStep
  · cases performedStep
    exact own first
  · cases performedStep
    rw [endTuple]
    split
    · exact aside (.emit (protocol.getOpcode_plain _)
        (Aside.emitAll (protocol.dropOpcodes_plain count) .refl))
    · exact trans (aside (.emit (protocol.tupleOpcode_plain count) .refl)) (own _)

namespace Grows

theorem endTuple (trace : Trace) (id : NodeId) (count : Nat) :
    Grows protocol trace (trace.endTuple protocol id count) := by
  rw [Trace.endTuple]
  split
  · exact .emit (protocol.getOpcode_plain _)
      (Aside.emitAll (protocol.dropOpcodes_plain count) .refl).grows
  · exact (refl.emit (protocol.tupleOpcode_plain count)).remember _

theorem performAll {id : NodeId} {node : Node}
    (writes : ∀ {id trace final}, write id trace = .complete final → Grows protocol trace final)
    {steps : List Step} (planned : ∀ step ∈ steps, Protocol.Planned protocol id node step)
    {trace final : Trace}
    (performed : performAll protocol write steps trace = .complete final) :
    Grows protocol trace final := by
  refine performAll_planned (fun {first second third} (left : Grows protocol first second) right =>
    left.trans right) (fun aside => ?_) (fun _ => writes) (fun _ => refl.remember _) planned
    performed
  exact aside.grows

/-- Writing a node to its end only lets the trace grow. -/
theorem writeNode {depth : Nat} {id : NodeId} {trace final : Trace}
    (complete : writeNode graph protocol depth id trace = .complete final) :
    Grows protocol trace final :=
  writeNode_induction (motive := fun _ trace final => Grows protocol trace final)
    (fun _ => (refl.begins _).emit (protocol.getOpcode_plain _))
    (fun writes _ _ plan performed => trans (refl.begins _)
      (Grows.performAll writes (Protocol.planned_of_mem_plan plan) performed))
    complete

/-! ## What growing keeps -/

theorem events {trace final : Trace} (grows : Grows protocol trace final) :
    ∃ added, final.events = trace.events ++ added := by
  induction grows with
  | refl => exact ⟨[], by simp⟩
  | split _ induction =>
      rcases induction with ⟨added, equal⟩
      exact ⟨added ++ [_], by rw [events_record, equal, List.append_assoc]⟩
  | begins id _ induction =>
      rcases induction with ⟨added, equal⟩
      exact ⟨added ++ [_], by rw [events_record, equal, List.append_assoc]⟩
  | emit _ _ induction =>
      rcases induction with ⟨added, equal⟩
      exact ⟨added ++ [_], by rw [events_emit, equal, List.append_assoc]⟩
  | remember key _ induction =>
      rcases induction with ⟨added, equal⟩
      exact ⟨added ++ [_], by rw [events_remember, equal, List.append_assoc]⟩

theorem faithful {trace final : Trace} (grows : Grows protocol trace final)
    (faithful : trace.memo.Faithful) : final.memo.Faithful := by
  induction grows with
  | refl => exact faithful
  | split _ induction => exact induction
  | begins id _ induction => exact induction
  | emit _ _ induction => exact induction
  | remember key _ induction => exact induction.take key

theorem slots {trace final : Trace} (grows : Grows protocol trace final) {slot : Nat}
    {key : Option MemoKey} (taken : trace.memo.slots[slot]? = some key) :
    final.memo.slots[slot]? = some key := by
  induction grows with
  | refl => exact taken
  | split _ induction => exact induction
  | begins id _ induction => exact induction
  | emit _ _ induction => exact induction
  | remember other _ induction =>
      rw [memo_remember, Memo.slots_take_of_lt _ _ (Memo.lt_next_of_slot induction)]
      exact induction

theorem next_le {trace final : Trace} (grows : Grows protocol trace final) :
    trace.memo.next ≤ final.memo.next := by
  induction grows with
  | refl => exact Nat.le_refl _
  | split _ induction => exact induction
  | begins id _ induction => exact induction
  | emit _ _ induction => exact induction
  | remember key _ induction =>
      rw [memo_remember, Memo.next_take]
      exact Nat.le_succ_of_le induction

theorem emitted {trace final : Trace} (grows : Grows protocol trace final)
    (emitted : ∀ opcode ∈ trace.opcodes, opcode.Emitted protocol) :
    ∀ opcode ∈ final.opcodes, opcode.Emitted protocol := by
  induction grows with
  | refl => exact emitted
  | split _ induction => rwa [opcodes_split]
  | begins id _ induction => rwa [opcodes_begins]
  | emit plain _ induction =>
      rw [opcodes_emit, List.forall_mem_append]
      exact ⟨induction, by simpa using plain.toEmitted⟩
  | remember key _ induction =>
      rw [opcodes_remember, List.forall_mem_append]
      exact ⟨induction, by simpa using protocol.putOpcode_emitted _⟩

theorem count_stores {trace final : Trace} (grows : Grows protocol trace final)
    (counted : trace.opcodes.countP Opcode.stores = trace.memo.next) :
    final.opcodes.countP Opcode.stores = final.memo.next := by
  induction grows with
  | refl => exact counted
  | split _ induction => rwa [opcodes_split]
  | begins id _ induction => rwa [opcodes_begins]
  | emit plain _ induction =>
      rw [opcodes_emit, List.countP_append, induction, memo_emit]
      simp [plain.keeps]
  | @remember middle key _ induction =>
      rw [opcodes_remember, List.countP_append, induction, memo_remember, Memo.next_take]
      simp [protocol.putOpcode_stores]

end Grows

end PickleTrial.Trace
