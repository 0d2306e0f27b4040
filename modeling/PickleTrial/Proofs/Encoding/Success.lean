import PickleTrial.Proofs.Encoding.Repetition
import PickleTrial.Proofs.Encoding.Termination

/-! Which values can be encoded. An encoding fails at a node that offends, if there is one that it
meets, and it meets every node that there is from the root: what it takes for written has been
written, with everything within. So where encoding ends, it succeeds under every protocol or
none. -/

namespace PickleTrial

namespace Graph

variable {graph : Graph} {protocol : Protocol} {root : NodeId}

/-- A position that cannot be encoded, and why. -/
inductive Offends (graph : Graph) : NodeId → EncodeError → Prop
  | dangling {id : NodeId} : graph.node? id = none → Offends graph id (.danglingNode id)
  | integer {id : NodeId} {literal : String} : graph.node? id = some (.bigInt literal) →
      Integer.ofLiteral? literal.toList = none → Offends graph id (.invalidInteger literal)
  | decimal {id : NodeId} {literal : String} : graph.node? id = some (.decimal literal) →
      Decimal.canonical? literal = none → Offends graph id (.invalidDecimal literal)
  | duration {id : NodeId} {value : Duration} : graph.node? id = some (.duration value) →
      value.microseconds? = none → Offends graph id .durationOutOfRange

/-- Every position that is met from the root holds a node, and every literal and duration among
them stands for a value. -/
structure Encodable (graph : Graph) (root : NodeId) : Prop where
  allocated : ∀ id, graph.Reaches root id → id < graph.size
  integers : ∀ id literal, graph.Reaches root id → graph.node? id = some (.bigInt literal) →
    Integer.ofLiteral? literal.toList ≠ none
  decimals : ∀ id literal, graph.Reaches root id → graph.node? id = some (.decimal literal) →
    Decimal.canonical? literal ≠ none
  durations : ∀ id value, graph.Reaches root id → graph.node? id = some (.duration value) →
    value.microseconds? ≠ none

private theorem encodable_iff : graph.Encodable root ↔
    ∀ id error, graph.Reaches root id → ¬graph.Offends id error := by
  constructor
  · intro encodable id error path offends
    cases offends with
    | dangling missing =>
        exact Nat.not_lt.2 (Array.getElem?_eq_none_iff.1 missing) (encodable.allocated id path)
    | integer present refused => exact encodable.integers id _ path present refused
    | decimal present refused => exact encodable.decimals id _ path present refused
    | duration present refused => exact encodable.durations id _ path present refused
  · intro sound
    refine ⟨fun id path => ?_, fun id _ path present refused => ?_,
      fun id _ path present refused => ?_, fun id _ path present refused => ?_⟩
    · by_contra outside
      exact sound id _ path (.dangling (Array.getElem?_eq_none_iff.2 (Nat.not_lt.1 outside)))
    · exact sound id _ path (.integer present refused)
    · exact sound id _ path (.decimal present refused)
    · exact sound id _ path (.duration present refused)

/-- A position that holds a node with a plan. -/
def Plannable (graph : Graph) (protocol : Protocol) (id : NodeId) : Prop :=
  ∃ node steps, graph.node? id = some node ∧ protocol.plan id node = .ok steps

theorem offends_of_plan {id : NodeId} {node : Node} {error : EncodeError}
    (present : graph.node? id = some node) (refused : protocol.plan id node = .error error) :
    graph.Offends id error := by
  cases node with
  | bigInt literal =>
      rw [Protocol.plan_bigInt] at refused
      split at refused <;> cases refused
      exact .integer present ‹_›
  | decimal literal =>
      rw [Protocol.plan] at refused
      split at refused <;> cases refused
      exact .decimal present ‹_›
  | duration value =>
      rw [Protocol.plan] at refused
      split at refused <;> cases refused
      exact .duration present ‹_›
  | tuple items =>
      rw [Protocol.plan] at refused
      split at refused <;> cases refused
  | _ => cases refused

private theorem Plannable.not_offends {id : NodeId} {error : EncodeError}
    (plannable : graph.Plannable protocol id) : ¬graph.Offends id error := by
  rcases plannable with ⟨node, steps, present, plan⟩
  intro offends
  cases offends with
  | dangling missing => cases missing.symm.trans present
  | integer same refused =>
      cases same.symm.trans present
      simp [Protocol.plan_bigInt, refused] at plan
  | decimal same refused =>
      cases same.symm.trans present
      simp [Protocol.plan, refused] at plan
  | duration same refused =>
      cases same.symm.trans present
      simp [Protocol.plan, refused] at plan

end Graph

namespace Trace

variable {graph : Graph} {protocol : Protocol} {write : NodeId → Trace → Outcome}

/-! ## Failure -/

private theorem offends_of_decided {id : NodeId} {trace final : Trace} {error : EncodeError}
    (decided : enter graph protocol id trace = .decided (.failed error final)) :
    graph.Offends id error := by
  rw [enter] at decided
  split at decided
  · cases decided
  · rename_i missing
    cases decided
    exact .dangling missing
  · rename_i node _ present
    cases plan : protocol.plan id node with
    | error error =>
        rw [plan] at decided
        cases decided
        exact Graph.offends_of_plan present plan
    | ok steps =>
        rw [plan] at decided
        cases decided

/-- Writing fails with the error of a node that it meets. -/
private theorem Returns.exists_offends {steps : List Step} {trace : Trace} {outcome : Outcome}
    (returns : Returns graph protocol steps trace outcome) {root : NodeId}
    (within : ∀ child, .node child ∈ steps → graph.Reaches root child)
    {error : EncodeError} {final : Trace} (failed : outcome = .failed error final) :
    ∃ id, graph.Reaches root id ∧ graph.Offends id error := by
  have inside {id : NodeId} {trace : Trace} {steps rest : List Step}
      (entered : enter graph protocol id trace = .planned steps)
      (within : ∀ child, .node child ∈ .node id :: rest → graph.Reaches root child) :
      ∀ child, .node child ∈ steps → graph.Reaches root child := by
    intro child member
    rcases enter_planned.1 entered with ⟨-, node, present, plan⟩
    exact (within id List.mem_cons_self).tail
      ⟨node, present, Protocol.mem_children_of_plan plan member⟩
  induction returns with
  | done => cases failed
  | other _ _ induction =>
      exact induction (fun child member => within child (List.mem_cons_of_mem _ member)) failed
  | fetched _ _ induction =>
      exact induction (fun child member => within child (List.mem_cons_of_mem _ member)) failed
  | @refused id _ _ _ _ decided =>
      cases failed
      exact ⟨id, within id List.mem_cons_self, offends_of_decided decided⟩
  | written _ _ _ _ induction =>
      exact induction (fun child member => within child (List.mem_cons_of_mem _ member)) failed
  | brokenOff planned _ induction =>
      cases failed
      exact induction (inside planned within) rfl

/-! ## Success -/

/-- Only nodes with a plan are given slots, and the nodes within every one but the node itself
have a plan. -/
private def PlansBut (graph : Graph) (protocol : Protocol) (id : NodeId) (trace final : Trace) :
    Prop :=
  (∀ other, trace.Stored other → graph.Plannable protocol other) →
    (∀ other, final.Stored other → graph.Plannable protocol other) ∧
      ∀ other child, other ≠ id → final.Stored other → ¬trace.Stored other →
        graph.RefersTo other child → graph.Plannable protocol child

namespace PlansBut

variable {id : NodeId} {first second third : Trace}

private theorem trans (left : PlansBut graph protocol id first second)
    (right : PlansBut graph protocol id second third) : PlansBut graph protocol id first third := by
  intro sound
  rcases left sound with ⟨soundSecond, children⟩
  rcases right soundSecond with ⟨soundThird, childrenThird⟩
  refine ⟨soundThird, fun other child different stored missing refers => ?_⟩
  by_cases earlier : second.Stored other
  · exact children other child different earlier missing refers
  · exact childrenThird other child different stored earlier refers

private theorem aside (aside : Aside protocol first second) :
    PlansBut graph protocol id first second :=
  fun sound => ⟨fun other stored => sound other ((aside.stored other).1 stored),
    fun other _ _ stored missing => absurd ((aside.stored other).1 stored) missing⟩

private theorem own (plannable : graph.Plannable protocol id) (trace : Trace) :
    PlansBut graph protocol id trace (trace.remember protocol (some (.node id))) := by
  intro sound
  refine ⟨fun other stored => ?_, fun other child different stored missing => ?_⟩
  · rcases (stored_remember_node trace id other).1 stored with rfl | earlier
    · exact plannable
    · exact sound other earlier
  · rcases (stored_remember_node trace id other).1 stored with same | earlier
    · exact absurd same different
    · exact absurd earlier missing

end PlansBut

/-- A node that is written to its end has a plan, and so has every node that is given a slot on the
way, and every node within. -/
structure Plans (graph : Graph) (protocol : Protocol) (id : NodeId) (trace final : Trace) :
    Prop where
  plannable : graph.Plannable protocol id
  stored : ∀ other, final.Stored other → graph.Plannable protocol other
  children : ∀ other child, final.Stored other → ¬trace.Stored other → graph.RefersTo other child →
    graph.Plannable protocol child

section Plan

variable {id : NodeId} {node : Node} {steps : List Step} {trace final : Trace}
  (writes : ∀ {id trace final}, write id trace = .complete final →
    (∀ other, trace.Stored other → graph.Plannable protocol other) →
      Plans graph protocol id trace final)
  (plannable : graph.Plannable protocol id)
  (planned : ∀ step ∈ steps, Protocol.Planned protocol id node step)
  (performed : performAll protocol write steps trace = .complete final)

include writes plannable planned performed

private theorem plansBut_of_planned : PlansBut graph protocol id trace final := by
  refine performAll_planned .trans .aside (fun _ written sound => ?_) (.own plannable) planned
    performed
  have plans := writes written sound
  exact ⟨plans.stored, fun other child _ => plans.children other child⟩

private theorem plannable_of_mem
    (sound : ∀ other, trace.Stored other → graph.Plannable protocol other) {child : NodeId}
    (inside : .node child ∈ steps) : graph.Plannable protocol child := by
  rcases List.append_of_mem inside with ⟨before, after, rfl⟩
  rcases performAll_append.1 performed with ⟨middle, performedBefore, performed⟩
  rcases performAll_cons.1 performed with ⟨later, written, -⟩
  have plans := plansBut_of_planned writes plannable (List.forall_mem_append.1 planned).1
    performedBefore
  exact (writes written (plans sound).1).plannable

end Plan

private theorem plans_writeNode {depth : Nat} {id : NodeId} {trace final : Trace}
    (complete : writeNode graph protocol depth id trace = .complete final)
    (sound : ∀ other, trace.Stored other → graph.Plannable protocol other) :
    Plans graph protocol id trace final := by
  refine writeNode_induction (motive := fun id trace final =>
    (∀ other, trace.Stored other → graph.Plannable protocol other) →
      Plans graph protocol id trace final) ?_ ?_ complete sound
  · intro id trace slot found sound
    have stored : trace.Stored id := by simp [Stored, found]
    exact ⟨sound id stored, sound, fun _ _ stored missing => absurd stored missing⟩
  · intro depth id node steps trace final writes missing present plan performed sound
    have plannable : graph.Plannable protocol id := ⟨node, steps, present, plan⟩
    have planned := Protocol.planned_of_mem_plan plan
    rcases plansBut_of_planned writes plannable planned performed sound with ⟨stored, others⟩
    refine ⟨plannable, stored, fun other child isStored unstored refers => ?_⟩
    by_cases same : other = id
    · subst same
      rcases refers with ⟨found, presentFound, inside⟩
      cases present.symm.trans presentFound
      exact plannable_of_mem writes plannable planned performed sound
        (Protocol.node_mem_plan plan inside)
    · exact others other child same isStored unstored refers

end Trace

/-! ## Whole values -/

namespace Graph

variable {graph : Graph} {protocol : Protocol} {root : NodeId}

/-- Everything that is met from the root has a plan in the end. -/
private theorem plannable_of_reaches {trace : Trace} {id : NodeId}
    (complete : graph.trace protocol root = .complete trace) (path : graph.Reaches root id) :
    graph.Plannable protocol id := by
  have none : ∀ other, Trace.start.Stored other → graph.Plannable protocol other :=
    fun other stored => absurd (Memo.find?_empty (.node other)) stored
  have plans := Trace.plans_writeNode complete none
  induction path with
  | refl => exact plans.plannable
  | @tail middle last path refers _ =>
      have stored := (settled_of_reaches complete path).resolve_right
        fun slotless => slotless.not_refersTo refers
      exact plans.children middle last stored (by simp [Trace.Stored]) refers

theorem exists_offends_of_pickle (ends : graph.Ends protocol root) {error : EncodeError}
    (refused : graph.pickle protocol.version root = .error error) :
    ∃ id, graph.Reaches root id ∧ graph.Offends id error := by
  rcases ends with ⟨outcome, returns⟩
  rw [pickle_eq, (returns_iff.1 returns).1] at refused
  cases outcome with
  | complete trace => cases refused
  | failed other final =>
      cases refused
      refine returns.exists_offends (fun child member => ?_) rfl
      cases List.mem_singleton.1 member
      exact .refl

theorem encodable_of_pickle {bytes : Bytes}
    (encoded : graph.pickle protocol.version root = .ok bytes) : graph.Encodable root := by
  rcases exists_streamed encoded with ⟨trace, streamed⟩
  exact encodable_iff.2 fun id error path =>
    (plannable_of_reaches streamed.traced path).not_offends

private theorem pickle_ok_iff (ends : graph.Ends protocol root) :
    (∃ bytes, graph.pickle protocol.version root = .ok bytes) ↔ graph.Encodable root := by
  constructor
  · intro given
    rcases given with ⟨bytes, encoded⟩
    exact encodable_of_pickle encoded
  · intro encodable
    cases encoded : graph.pickle protocol.version root with
    | ok bytes => exact ⟨bytes, rfl⟩
    | error error =>
        rcases exists_offends_of_pickle ends encoded with ⟨id, path, offends⟩
        exact absurd offends (encodable_iff.1 encodable id error path)

/-- Where encoding ends, it succeeds exactly where every position that is met from the root can be
encoded, and else fails with the error of one that cannot. So it succeeds under every protocol
under which it ends, or under none. -/
theorem encodes_iff_encodable (ends : graph.Ends protocol root) :
    ((∃ bytes, graph.pickle protocol.version root = .ok bytes) ↔ graph.Encodable root) ∧
      (∀ error, graph.pickle protocol.version root = .error error →
        ∃ id, graph.Reaches root id ∧ graph.Offends id error) ∧
      ∀ other : Protocol, graph.Ends other root →
        ((∃ bytes, graph.pickle other.version root = .ok bytes) ↔
          ∃ bytes, graph.pickle protocol.version root = .ok bytes) := by
  refine ⟨pickle_ok_iff ends, fun error => exists_offends_of_pickle ends, fun other otherEnds => ?_⟩
  rw [pickle_ok_iff ends, pickle_ok_iff otherEnds]

/-- A literal that stands for no integer, met from a list within itself: no protocol encodes it. -/
theorem not_encodable_selfListed :
    Ends ⟨#[.list [1, 0], .tuple [2, 0], .bigInt "12x"]⟩ ⟨1, by decide⟩ 0 ∧
      Ends ⟨#[.list [1, 0], .tuple [2, 0], .bigInt "12x"]⟩ ⟨4, by decide⟩ 0 ∧
      ¬Encodable ⟨#[.list [1, 0], .tuple [2, 0], .bigInt "12x"]⟩ 0 ∧
      (∃ id, Reaches ⟨#[.list [1, 0], .tuple [2, 0], .bigInt "12x"]⟩ 0 id ∧
        Offends ⟨#[.list [1, 0], .tuple [2, 0], .bigInt "12x"]⟩ id (.invalidInteger "12x")) ∧
      ¬∃ bytes, pickle ⟨#[.list [1, 0], .tuple [2, 0], .bigInt "12x"]⟩ 4 0 = .ok bytes := by
  have ends : Ends ⟨#[.list [1, 0], .tuple [2, 0], .bigInt "12x"]⟩ ⟨1, by decide⟩ 0 :=
    ends_iff.2 (by decide +kernel)
  have endsNewer : Ends ⟨#[.list [1, 0], .tuple [2, 0], .bigInt "12x"]⟩ ⟨4, by decide⟩ 0 :=
    ends_iff.2 (by decide +kernel)
  have refused : pickle ⟨#[.list [1, 0], .tuple [2, 0], .bigInt "12x"]⟩ 1 0 =
      .error (.invalidInteger "12x") := by decide +kernel
  have failed : ¬∃ bytes,
      pickle ⟨#[.list [1, 0], .tuple [2, 0], .bigInt "12x"]⟩ 1 0 = .ok bytes := by
    simp [refused]
  rcases encodes_iff_encodable ends with ⟨encodes, offends, protocols⟩
  exact ⟨ends, endsNewer, fun encodable => failed (encodes.2 encodable), offends _ refused,
    fun encoded => failed ((protocols _ endsNewer).1 encoded)⟩

end Graph

end PickleTrial
