import Mathlib.Logic.Relation
import PickleTrial.Proofs.Encoding.Writing

/-! Which nodes have slots when. Writing a node gives slots to exactly what is reached from it
through nodes that had none before, and when it is written, so is everything that it refers to. -/

namespace PickleTrial

namespace Graph

def RefersTo (graph : Graph) (first second : NodeId) : Prop :=
  ∃ node, graph.node? first = some node ∧ second ∈ node.children

/-- A position is met on the way from another. -/
def Reaches (graph : Graph) : NodeId → NodeId → Prop :=
  Relation.ReflTransGen graph.RefersTo

def OnCycle (graph : Graph) (id : NodeId) : Prop :=
  Relation.TransGen graph.RefersTo id id

def Slotless (graph : Graph) (id : NodeId) : Prop :=
  ∃ node, graph.node? id = some node ∧ node.takesSlot = false

theorem Slotless.not_refersTo {graph : Graph} {id child : NodeId} (slotless : graph.Slotless id) :
    ¬graph.RefersTo id child := by
  rcases slotless with ⟨node, present, takesNone⟩
  intro given
  rcases given with ⟨other, found, inside⟩
  cases present.symm.trans found
  cases node with
  | tuple items => simp_all [Node.takesSlot, Node.children]
  | list | set | dict => cases takesNone
  | _ => cases inside

end Graph

namespace Trace

variable {graph : Graph} {protocol : Protocol} {write : NodeId → Trace → Outcome}

def Stored (trace : Trace) (id : NodeId) : Prop :=
  trace.memo.find? (.node id) ≠ none

/-- A node has a slot or takes none. -/
def Settled (graph : Graph) (trace : Trace) (id : NodeId) : Prop :=
  trace.Stored id ∨ graph.Slotless id

/-- One position refers to another that has no slot yet. -/
def Opens (graph : Graph) (trace : Trace) (first second : NodeId) : Prop :=
  graph.RefersTo first second ∧ ¬trace.Stored second

theorem stored_remember_self (trace : Trace) (id : NodeId) :
    (trace.remember protocol (some (.node id))).Stored id := by
  simp [Stored]

theorem stored_remember_node (trace : Trace) (id other : NodeId) :
    (trace.remember protocol (some (.node id))).Stored other ↔ other = id ∨ trace.Stored other := by
  by_cases same : other = id
  · subst same
    simp [stored_remember_self]
  · have different : MemoKey.node other ≠ .node id := fun equal => same (MemoKey.node.inj equal)
    simp [Stored, Memo.find?_take_of_ne _ different, same]

theorem Aside.stored {trace final : Trace} (aside : Aside protocol trace final) (id : NodeId) :
    final.Stored id ↔ trace.Stored id := by
  induction aside with
  | refl => rfl
  | split _ induction => exact induction
  | emit _ _ induction => exact induction
  | fresh _ induction =>
      rw [← induction]
      simp [Stored]
  | shared noNode _ _ induction =>
      rw [← induction]
      simp [Stored, Memo.find?_take_of_ne _ (noNode id).symm]

private theorem Opens.anti {first second : Trace} {parent child : NodeId}
    (stored : ∀ id, first.Stored id → second.Stored id)
    (opens : Opens graph second parent child) : Opens graph first parent child :=
  ⟨opens.1, fun earlier => opens.2 (stored child earlier)⟩

/-! ## What is stored is reached -/

/-- No slot is lost, and slots are given only to nodes of a kind. -/
private def GivesOnly (kind : NodeId → Prop) (start first second : Trace) : Prop :=
  (∀ other, start.Stored other → first.Stored other) →
    (∀ other, start.Stored other → second.Stored other) ∧
      ∀ other, second.Stored other → first.Stored other ∨ kind other

variable {kind : NodeId → Prop} {start first second third : Trace}

private theorem GivesOnly.refl (trace : Trace) : GivesOnly kind start trace trace :=
  fun kept => ⟨kept, fun _ stored => Or.inl stored⟩

private theorem GivesOnly.trans (left : GivesOnly kind start first second)
    (right : GivesOnly kind start second third) : GivesOnly kind start first third := by
  intro kept
  rcases left kept with ⟨keptSecond, newSecond⟩
  rcases right keptSecond with ⟨keptThird, newThird⟩
  refine ⟨keptThird, fun other stored => ?_⟩
  rcases newThird other stored with earlier | reached
  · exact newSecond other earlier
  · exact Or.inr reached

private theorem GivesOnly.aside (aside : Aside protocol first second) :
    GivesOnly kind start first second :=
  fun kept => ⟨fun other stored => (aside.stored other).2 (kept other stored),
    fun other stored => Or.inl ((aside.stored other).1 stored)⟩

private theorem GivesOnly.own {id : NodeId} (own : kind id) (trace : Trace) :
    GivesOnly kind start trace (trace.remember protocol (some (.node id))) := by
  intro kept
  refine ⟨fun other stored => ?_, fun other stored => ?_⟩
  · exact (stored_remember_node trace id other).2 (Or.inr (kept other stored))
  · rcases (stored_remember_node trace id other).1 stored with rfl | earlier
    · exact Or.inr own
    · exact Or.inl earlier

/-- Whatever writing a node gives a slot to is met from it through nodes that had none. -/
structure ReachesNew (graph : Graph) (id : NodeId) (trace final : Trace) : Prop where
  grown : ∀ other, trace.Stored other → final.Stored other
  reached : ∀ other, final.Stored other → trace.Stored other ∨
    ¬trace.Stored id ∧ Relation.ReflTransGen (Opens graph trace) id other

private theorem GivesOnly.child {id child : NodeId} {node : Node}
    (present : graph.node? id = some node) (inside : child ∈ node.children)
    (reachesNew : ReachesNew graph child first second) :
    GivesOnly (Relation.TransGen (Opens graph start) id) start first second := by
  intro kept
  refine ⟨fun other stored => reachesNew.grown other (kept other stored), fun other stored => ?_⟩
  refine (reachesNew.reached other stored).imp_right fun ⟨missing, path⟩ => ?_
  have opens : Opens graph start id child :=
    ⟨⟨node, present, inside⟩, fun earlier => missing (kept child earlier)⟩
  exact Relation.TransGen.head' opens
    (Relation.ReflTransGen.mono (fun _ _ opens => opens.anti kept) _ _ path)

section Plan

variable {node : Node} {id : NodeId} (present : graph.node? id = some node)
  (writes : ∀ {id trace final}, write id trace = .complete final → ReachesNew graph id trace final)
  {steps : List Step} {trace final : Trace}
  (performed : performAll protocol write steps trace = .complete final)

include present writes performed

/-- Beside its own slot, a plan gives slots to what is met from the children of its node. -/
private theorem transGen_of_inner
    (inner : ∀ step ∈ steps, Protocol.Inner protocol node.children step)
    {other : NodeId} (stored : final.Stored other) (missing : ¬trace.Stored other) :
    Relation.TransGen (Opens graph trace) id other := by
  have gives : GivesOnly (Relation.TransGen (Opens graph trace) id) trace trace final := by
    refine performAll_related GivesOnly.refl GivesOnly.trans ?_ performed
    intro step member first second performedStep
    rcases inner step member with glue | inside
    · exact .aside (Aside.perform glue performedStep)
    · exact .child present inside (writes performedStep)
  exact ((gives fun _ earlier => earlier).2 other stored).resolve_left missing

private theorem reachesNew_of_planned (missing : ¬trace.Stored id)
    (planned : ∀ step ∈ steps, Protocol.Planned protocol id node step) :
    ReachesNew graph id trace final := by
  have gives : GivesOnly (Relation.ReflTransGen (Opens graph trace) id) trace trace final := by
    refine performAll_planned .trans .aside (fun {child first second} inside written kept => ?_)
      (.own .refl) planned performed
    have met : GivesOnly (Relation.TransGen (Opens graph trace) id) trace first second :=
      .child present inside (writes written)
    have result := met kept
    exact ⟨result.1, fun other stored => (result.2 other stored).imp_right
      Relation.TransGen.to_reflTransGen⟩
  have result := gives fun _ earlier => earlier
  exact ⟨result.1,
    fun other stored => (result.2 other stored).imp_right fun path => ⟨missing, path⟩⟩

end Plan

private theorem reachesNew_writeNode {depth : Nat} {id : NodeId} {trace final : Trace}
    (complete : writeNode graph protocol depth id trace = .complete final) :
    ReachesNew graph id trace final := by
  refine writeNode_induction (motive := ReachesNew graph) ?_ ?_ complete
  · intro id trace slot _
    exact ⟨fun _ stored => stored, fun _ stored => Or.inl stored⟩
  · intro depth id node steps trace final writes missing present plan performed
    have result := reachesNew_of_planned present writes performed (fun stored => stored missing)
      (Protocol.planned_of_mem_plan plan)
    exact ⟨result.grown, result.reached⟩

/-! ## What is reached is stored -/

/-- Writing a node settles it, and with every node that is given a slot its children. -/
structure Settles (graph : Graph) (id : NodeId) (trace final : Trace) : Prop where
  grown : ∀ other, trace.Stored other → final.Stored other
  settled : Settled graph final id
  children : ∀ other child, final.Stored other → ¬trace.Stored other →
    graph.RefersTo other child → Settled graph final child

private theorem Settled.mono {trace final : Trace} {id : NodeId}
    (settled : Settled graph trace id) (grown : ∀ other, trace.Stored other → final.Stored other) :
    Settled graph final id :=
  settled.imp_left (grown id)

/-- No slot is lost, and the children of every node but one that is given a slot are settled. -/
private structure SettlesBut (graph : Graph) (id : NodeId) (trace final : Trace) : Prop where
  grown : ∀ other, trace.Stored other → final.Stored other
  children : ∀ other child, other ≠ id → final.Stored other → ¬trace.Stored other →
    graph.RefersTo other child → Settled graph final child

private theorem SettlesBut.trans {id : NodeId} (left : SettlesBut graph id first second)
    (right : SettlesBut graph id second third) : SettlesBut graph id first third where
  grown other stored := right.grown other (left.grown other stored)
  children other child different stored missing refers := by
    by_cases earlier : second.Stored other
    · exact (left.children other child different earlier missing refers).mono right.grown
    · exact right.children other child different stored earlier refers

private theorem SettlesBut.aside {id : NodeId} (aside : Aside protocol first second) :
    SettlesBut graph id first second where
  grown other stored := (aside.stored other).2 stored
  children other _ _ stored missing := absurd ((aside.stored other).1 stored) missing

private theorem SettlesBut.own {id : NodeId} (trace : Trace) :
    SettlesBut graph id trace (trace.remember protocol (some (.node id))) where
  grown other stored := (stored_remember_node trace id other).2 (Or.inr stored)
  children other child different stored missing := by
    rcases (stored_remember_node trace id other).1 stored with same | earlier
    · exact absurd same different
    · exact absurd earlier missing

/-- What a node reaches through nodes without a slot is settled with the children of the node. -/
private theorem SettlesBut.settled_of_transGen {id other : NodeId}
    (others : SettlesBut graph id first second)
    (own : ∀ {child}, graph.RefersTo id child → Settled graph second child)
    (path : Relation.TransGen (Opens graph first) id other) :
    ¬first.Stored other ∧ Settled graph second other := by
  induction path with
  | single step => exact ⟨step.2, own step.1⟩
  | @tail middle last _ step induction =>
      refine ⟨step.2, ?_⟩
      by_cases same : middle = id
      · subst same
        exact own step.1
      · have stored := induction.2.resolve_right fun slotless => slotless.not_refersTo step.1
        exact others.children middle last same stored induction.1 step.1

section Plan

variable {node : Node} {id : NodeId}
  (writes : ∀ {id trace final}, write id trace = .complete final → Settles graph id trace final)

include writes

private theorem settlesBut_of_planned {steps : List Step} {trace final : Trace}
    (planned : ∀ step ∈ steps, Protocol.Planned protocol id node step)
    (performed : performAll protocol write steps trace = .complete final) :
    SettlesBut graph id trace final := by
  refine performAll_planned .trans .aside (fun _ written => ?_) .own planned performed
  have settles := writes written
  exact ⟨settles.grown, fun other child _ => settles.children other child⟩

private theorem settled_of_mem {steps : List Step} {trace final : Trace}
    (planned : ∀ step ∈ steps, Protocol.Planned protocol id node step)
    (performed : performAll protocol write steps trace = .complete final) {child : NodeId}
    (inside : .node child ∈ steps) : Settled graph final child := by
  rcases List.append_of_mem inside with ⟨before, after, rfl⟩
  have parts := List.forall_mem_append.1 planned
  rcases performAll_append.1 performed with ⟨middle, -, performed⟩
  rcases performAll_cons.1 performed with ⟨later, written, performed⟩
  have settles := writes written
  have rest := settlesBut_of_planned writes (List.forall_mem_cons.1 parts.2).2 performed
  exact settles.settled.mono rest.grown

private theorem settled_children {steps : List Step} {trace final : Trace}
    (present : graph.node? id = some node)
    (planned : ∀ step ∈ steps, Protocol.Planned protocol id node step)
    (opened : ∀ child ∈ node.children, .node child ∈ steps)
    (performed : performAll protocol write steps trace = .complete final) {child : NodeId}
    (refers : graph.RefersTo id child) : Settled graph final child := by
  rcases refers with ⟨other, found, inside⟩
  cases present.symm.trans found
  exact settled_of_mem writes planned performed (opened child inside)

/-- Carrying out a plan to its end gives a slot to a node that takes one. -/
private theorem settled_of_shape {steps : List Step} {trace final : Trace}
    (present : graph.node? id = some node) (shape : Protocol.Shape protocol id node steps)
    (planned : ∀ step ∈ steps, Protocol.Planned protocol id node step)
    (performed : performAll protocol write steps trace = .complete final) :
    Settled graph final id := by
  cases shape with
  | scalar slotless => exact Or.inr ⟨node, present, slotless⟩
  | storedFirst =>
      have parts := List.forall_mem_cons.1 (List.forall_mem_append.1 planned).2
      rcases performAll_append.1 performed with ⟨middle, -, performed⟩
      rcases performAll_cons.1 performed with ⟨later, own, performed⟩
      cases own
      have rest := settlesBut_of_planned writes parts.2 performed
      exact Or.inl (rest.grown id (stored_remember_self middle id))
  | oldSet =>
      rcases performAll_append.1 performed with ⟨middle, -, performed⟩
      cases performed
      exact Or.inl (stored_remember_self middle id)
  | tuple =>
      rcases performAll_append.1 performed with ⟨middle, -, performed⟩
      cases performed
      rw [endTuple]
      split
      · rename_i slot found
        left
        simp [Stored, found]
      · exact Or.inl (stored_remember_self _ id)

end Plan

theorem settles_writeNode {depth : Nat} {id : NodeId} {trace final : Trace}
    (complete : writeNode graph protocol depth id trace = .complete final) :
    Settles graph id trace final := by
  refine writeNode_induction (motive := Settles graph) ?_ ?_ complete
  · intro id trace slot found
    have stored : trace.Stored id := by simp [Stored, found]
    exact ⟨fun _ stored => stored, Or.inl stored, fun _ _ stored missing => absurd stored missing⟩
  · intro depth id node steps trace final writes missing present plan performed
    have planned := Protocol.planned_of_mem_plan plan
    have others := settlesBut_of_planned writes planned performed
    refine ⟨others.grown, settled_of_shape writes present (Protocol.shape_of_plan plan) planned
      performed, fun other child stored unstored refers => ?_⟩
    by_cases same : other = id
    · subst same
      exact settled_children writes present planned
        (fun _ inside => Protocol.node_mem_plan plan inside) performed refers
    · exact others.children other child same stored unstored refers

/-! ## Nodes within themselves -/

/-- Before a node takes its slot its plan stores it exactly where it is met again from itself
through nodes that had no slot: it is written once more within itself. -/
theorem stored_iff_transGen {depth : Nat} {node : Node} {id : NodeId} {steps : List Step}
    {trace final : Trace} (present : graph.node? id = some node) (takesSlot : node.takesSlot)
    (missing : ¬trace.Stored id)
    (inner : ∀ step ∈ steps, Protocol.Inner protocol node.children step)
    (opened : ∀ child ∈ node.children, .node child ∈ steps)
    (performed : performAll protocol (writeNode graph protocol depth) steps trace =
      .complete final) :
    final.Stored id ↔ Relation.TransGen (Opens graph trace) id id := by
  have planned : ∀ step ∈ steps, Protocol.Planned protocol id node step :=
    fun step member => .inner (inner step member)
  have others := settlesBut_of_planned settles_writeNode planned performed
  have own {child : NodeId} (refers : graph.RefersTo id child) : Settled graph final child :=
    settled_children settles_writeNode present planned opened performed refers
  have noSlotless : ¬graph.Slotless id := by
    intro given
    rcases given with ⟨other, found, takesNone⟩
    cases present.symm.trans found
    rw [takesSlot] at takesNone
    cases takesNone
  constructor
  · exact fun stored =>
      transGen_of_inner present reachesNew_writeNode performed inner stored missing
  · intro cycle
    exact (others.settled_of_transGen own cycle).2.resolve_right noSlotless

end Trace

end PickleTrial
