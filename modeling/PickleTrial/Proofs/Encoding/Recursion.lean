import PickleTrial.Proofs.Encoding.Writing

/-! Encoding without a bound. The rules of `Returns` say how writing comes out however deep nodes
lie within each other; a derivation is finite, so there is one exactly where writing ends. Writing
within a bound comes out the same unless it meets the bound. -/

namespace PickleTrial

namespace Protocol

variable {protocol : Protocol}

private theorem plan_ne_endless (id : NodeId) (node : Node) :
    protocol.plan id node ≠ .error .endless := by
  cases node with
  | bigInt | duration | decimal | tuple =>
      rw [plan]
      split <;> simp
  | _ => simp [plan]

end Protocol

namespace Trace

variable {graph : Graph} {protocol : Protocol} {write other : NodeId → Trace → Outcome}

/-- Whether writing met its bound. -/
def Outcome.isEndless : Outcome → Bool
  | .failed .endless _ => true
  | _ => false

private theorem Outcome.isEndless_failed {error : EncodeError} {trace : Trace} :
    (Outcome.failed error trace).isEndless = true ↔ error = .endless := by
  cases error <;> simp [isEndless]

theorem Outcome.isEndless_iff {outcome : Outcome} :
    outcome.isEndless = true ↔ ∃ final, outcome = .failed .endless final := by
  cases outcome with
  | complete trace => simp [isEndless]
  | failed error trace => simp [isEndless_failed]

/-- Carrying out steps fails where a node fails behind steps that come to their end. -/
theorem performAll_failed {steps : List Step} {trace final : Trace} {error : EncodeError} :
    performAll protocol write steps trace = .failed error final ↔
      ∃ before child after middle, steps = before ++ .node child :: after ∧
        performAll protocol write before trace = .complete middle ∧
          write child middle = .failed error final := by
  constructor
  · intro failed
    induction steps generalizing trace with
    | nil => cases failed
    | cons step rest induction =>
        rw [performAll] at failed
        cases performed : trace.perform protocol write step with
        | complete middle =>
            rw [performed] at failed
            rcases induction failed with ⟨before, child, after, last, rfl, first, written⟩
            exact ⟨step :: before, child, after, last, rfl,
              performAll_cons.2 ⟨middle, performed, first⟩, written⟩
        | failed other stopped =>
            rw [performed] at failed
            cases failed
            cases step with
            | node child => exact ⟨[], child, rest, trace, rfl, rfl, performed⟩
            | _ => cases performed
  · intro given
    rcases given with ⟨before, child, after, middle, rfl, performed, written⟩
    induction before generalizing trace with
    | nil =>
        cases performed
        rw [List.nil_append, performAll, perform, written]
    | cons step rest induction =>
        rcases performAll_cons.1 performed with ⟨between, first, performed⟩
        rw [List.cons_append, performAll, first]
        exact induction performed

/-! ## How a node begins -/

/-- What is known of a node when it begins: how writing it comes out, or the steps that write
it. -/
inductive Entry
  | decided (outcome : Outcome)
  | planned (steps : List Step)

def enter (graph : Graph) (protocol : Protocol) (id : NodeId) (trace : Trace) : Entry :=
  let begun := trace.record (.begins id)
  match trace.memo.find? (.node id), graph.node? id with
  | some slot, _ => .decided (.complete (begun.emit (protocol.getOpcode slot)))
  | none, none => .decided (.failed (.danglingNode id) begun)
  | none, some node =>
      match protocol.plan id node with
      | .error error => .decided (.failed error begun)
      | .ok steps => .planned steps

theorem writeNode_succ (depth : Nat) (id : NodeId) (trace : Trace) :
    writeNode graph protocol (depth + 1) id trace =
      match enter graph protocol id trace with
      | .decided outcome => outcome
      | .planned steps =>
          performAll protocol (writeNode graph protocol depth) steps
            (trace.record (.begins id)) := by
  rw [writeNode, enter]
  simp only [memo_record]
  cases trace.memo.find? (.node id) with
  | some slot => rfl
  | none =>
      cases graph.node? id with
      | none => rfl
      | some node => cases plan : protocol.plan id node <;> simp only [plan]

theorem writeNode_of_decided {id : NodeId} {trace : Trace} {outcome : Outcome}
    (decided : enter graph protocol id trace = .decided outcome) (depth : Nat) :
    writeNode graph protocol (depth + 1) id trace = outcome := by
  rw [writeNode_succ, decided]

theorem writeNode_of_planned {id : NodeId} {trace : Trace} {steps : List Step}
    (planned : enter graph protocol id trace = .planned steps) (depth : Nat) :
    writeNode graph protocol (depth + 1) id trace =
      performAll protocol (writeNode graph protocol depth) steps (trace.record (.begins id)) := by
  rw [writeNode_succ, planned]

theorem enter_planned {id : NodeId} {trace : Trace} {steps : List Step} :
    enter graph protocol id trace = .planned steps ↔
      trace.memo.find? (.node id) = none ∧
        ∃ node, graph.node? id = some node ∧ protocol.plan id node = .ok steps := by
  rw [enter]
  cases trace.memo.find? (.node id) with
  | some slot => simp
  | none =>
      cases graph.node? id with
      | none => simp
      | some node =>
          cases plan : protocol.plan id node with
          | error error => simp [plan]
          | ok planned => simp [plan]

theorem not_isEndless_of_decided {id : NodeId} {trace : Trace} {outcome : Outcome}
    (decided : enter graph protocol id trace = .decided outcome) : outcome.isEndless = false := by
  rw [enter] at decided
  split at decided
  · cases decided
    rfl
  · cases decided
    rfl
  · rename_i node _ _
    cases plan : protocol.plan id node with
    | error error =>
        rw [plan] at decided
        cases decided
        rw [Bool.eq_false_iff, ne_eq, Outcome.isEndless_failed]
        rintro rfl
        exact Protocol.plan_ne_endless id node plan
    | ok steps =>
        rw [plan] at decided
        cases decided

theorem exists_plan_of_complete {depth : Nat} {id : NodeId} {trace final : Trace}
    (complete : writeNode graph protocol depth id trace = .complete final)
    (missing : trace.memo.find? (.node id) = none) :
    ∃ node steps, graph.node? id = some node ∧ protocol.plan id node = .ok steps := by
  refine writeNode_induction (motive := fun id trace _ => trace.memo.find? (.node id) = none →
    ∃ node steps, graph.node? id = some node ∧ protocol.plan id node = .ok steps)
    ?_ ?_ complete missing
  · intro id trace slot found missing
    rw [found] at missing
    cases missing
  · exact fun _ _ present plan _ _ => ⟨_, _, present, plan⟩

/-! ## Deeper bounds -/

/-- A way of writing nodes comes out as another wherever that one does not meet its bound. -/
def Refines (other write : NodeId → Trace → Outcome) : Prop :=
  ∀ id trace, (write id trace).isEndless = false → other id trace = write id trace

theorem Refines.performAll {steps : List Step} {trace : Trace} (refines : Refines other write)
    (ends : (performAll protocol write steps trace).isEndless = false) :
    performAll protocol other steps trace = performAll protocol write steps trace := by
  induction steps generalizing trace with
  | nil => rfl
  | cons step rest induction =>
      have performed : trace.perform protocol other step = trace.perform protocol write step := by
        cases step with
        | node id =>
            refine refines id trace ?_
            rw [Trace.performAll, perform] at ends
            cases written : write id trace with
            | complete middle => rfl
            | failed error final => rwa [written] at ends
        | _ => rfl
      rw [Trace.performAll] at ends ⊢
      rw [performed]
      rw [Trace.performAll]
      cases taken : trace.perform protocol write step with
      | complete middle =>
          rw [taken] at ends
          exact induction ends
      | failed error final => rfl

theorem refines_writeNode {depth deeper : Nat} (more : depth ≤ deeper) :
    Refines (writeNode graph protocol deeper) (writeNode graph protocol depth) := by
  induction depth generalizing deeper with
  | zero =>
      intro id trace ends
      cases ends
  | succ depth induction =>
      obtain ⟨deeper, rfl⟩ : ∃ fewer, deeper = fewer + 1 := ⟨deeper - 1, by omega⟩
      intro id trace ends
      cases entered : enter graph protocol id trace with
      | decided outcome => rw [writeNode_of_decided entered, writeNode_of_decided entered]
      | planned steps =>
          rw [writeNode_of_planned entered] at ends ⊢
          rw [writeNode_of_planned entered]
          exact (induction (by omega)).performAll ends

/-! ## Writing without a bound -/

/-- How carrying out steps comes out. -/
inductive Returns (graph : Graph) (protocol : Protocol) : List Step → Trace → Outcome → Prop
  | done {trace : Trace} : Returns graph protocol [] trace (.complete trace)
  | other {step : Step} {rest : List Step} {trace middle : Trace} {outcome : Outcome} :
      (∀ write, trace.perform protocol write step = .complete middle) →
      Returns graph protocol rest middle outcome →
      Returns graph protocol (step :: rest) trace outcome
  | fetched {id : NodeId} {rest : List Step} {trace middle : Trace} {outcome : Outcome} :
      enter graph protocol id trace = .decided (.complete middle) →
      Returns graph protocol rest middle outcome →
      Returns graph protocol (.node id :: rest) trace outcome
  | refused {id : NodeId} {rest : List Step} {trace final : Trace} {error : EncodeError} :
      enter graph protocol id trace = .decided (.failed error final) →
      Returns graph protocol (.node id :: rest) trace (.failed error final)
  | written {id : NodeId} {steps rest : List Step} {trace middle : Trace} {outcome : Outcome} :
      enter graph protocol id trace = .planned steps →
      Returns graph protocol steps (trace.record (.begins id)) (.complete middle) →
      Returns graph protocol rest middle outcome →
      Returns graph protocol (.node id :: rest) trace outcome
  | brokenOff {id : NodeId} {steps rest : List Step} {trace final : Trace} {error : EncodeError} :
      enter graph protocol id trace = .planned steps →
      Returns graph protocol steps (trace.record (.begins id)) (.failed error final) →
      Returns graph protocol (.node id :: rest) trace (.failed error final)

namespace Returns

variable {steps rest : List Step} {trace : Trace} {outcome : Outcome}

theorem not_isEndless (returns : Returns graph protocol steps trace outcome) :
    outcome.isEndless = false := by
  induction returns with
  | done => rfl
  | other _ _ induction => exact induction
  | fetched _ _ induction => exact induction
  | refused decided => exact not_isEndless_of_decided decided
  | written _ _ _ _ induction => exact induction
  | brokenOff _ _ induction => exact induction

/-- Some bound is not met, and no deeper one is. -/
theorem exists_depth (returns : Returns graph protocol steps trace outcome) :
    ∃ depth, ∀ deeper, depth ≤ deeper →
      performAll protocol (writeNode graph protocol deeper) steps trace = outcome := by
  induction returns with
  | done => exact ⟨0, fun _ _ => rfl⟩
  | other performed _ induction =>
      rcases induction with ⟨depth, enough⟩
      refine ⟨depth, fun deeper more => ?_⟩
      rw [performAll, performed, ← enough deeper more]
  | fetched decided _ induction =>
      rcases induction with ⟨depth, enough⟩
      refine ⟨depth + 1, fun deeper more => ?_⟩
      obtain ⟨deeper, rfl⟩ : ∃ fewer, deeper = fewer + 1 := ⟨deeper - 1, by omega⟩
      rw [performAll, perform, writeNode_of_decided decided, ← enough (deeper + 1) (by omega)]
  | refused decided =>
      refine ⟨1, fun deeper more => ?_⟩
      obtain ⟨deeper, rfl⟩ : ∃ fewer, deeper = fewer + 1 := ⟨deeper - 1, by omega⟩
      rw [performAll, perform, writeNode_of_decided decided]
  | written planned _ _ inside behind =>
      rcases inside with ⟨depth, enough⟩
      rcases behind with ⟨depthBehind, enoughBehind⟩
      refine ⟨max depth depthBehind + 1, fun deeper more => ?_⟩
      obtain ⟨deeper, rfl⟩ : ∃ fewer, deeper = fewer + 1 := ⟨deeper - 1, by omega⟩
      rw [performAll, perform, writeNode_of_planned planned, enough deeper (by omega),
        ← enoughBehind (deeper + 1) (by omega)]
  | brokenOff planned _ inside =>
      rcases inside with ⟨depth, enough⟩
      refine ⟨depth + 1, fun deeper more => ?_⟩
      obtain ⟨deeper, rfl⟩ : ∃ fewer, deeper = fewer + 1 := ⟨deeper - 1, by omega⟩
      rw [performAll, perform, writeNode_of_planned planned, enough deeper (by omega)]

end Returns

private theorem returns_performAll
    (writes : ∀ {id trace}, (write id trace).isEndless = false →
      Returns graph protocol [.node id] trace (write id trace))
    {steps : List Step} {trace : Trace}
    (ends : (performAll protocol write steps trace).isEndless = false) :
    Returns graph protocol steps trace (performAll protocol write steps trace) := by
  induction steps generalizing trace with
  | nil => exact .done
  | cons step rest induction =>
      rw [performAll] at ends ⊢
      cases step with
      | node id =>
          rw [perform] at ends ⊢
          cases outcome : write id trace with
          | failed error final =>
              rw [outcome] at ends
              have returns := writes (outcome ▸ ends : (write id trace).isEndless = false)
              rw [outcome] at returns
              cases returns with
              -- A step that is carried out whatever nodes are written as is not that of a node.
              | other performed => cases performed fun _ trace => .failed .endless trace
              | fetched _ nothing => cases nothing
              | refused decided => exact .refused decided
              | written _ _ nothing => cases nothing
              | brokenOff planned inside => exact .brokenOff planned inside
          | complete middle =>
              rw [outcome] at ends
              have returns := writes (by rw [outcome]; rfl : (write id trace).isEndless = false)
              rw [outcome] at returns
              cases returns with
              | other performed => cases performed fun _ trace => .failed .endless trace
              | fetched decided nothing =>
                  cases nothing
                  exact .fetched decided (induction ends)
              | written planned inside nothing =>
                  cases nothing
                  exact .written planned inside (induction ends)
      | _ => exact .other (fun _ => rfl) (induction ends)

/-- Writing that does not meet its bound comes out by the rules. -/
theorem returns_writeNode {depth : Nat} {id : NodeId} {trace : Trace}
    (ends : (writeNode graph protocol depth id trace).isEndless = false) :
    Returns graph protocol [.node id] trace (writeNode graph protocol depth id trace) := by
  induction depth generalizing id trace with
  | zero => cases ends
  | succ depth induction =>
      cases entered : enter graph protocol id trace with
      | decided outcome =>
          rw [writeNode_of_decided entered]
          cases outcome with
          | complete middle => exact .fetched entered .done
          | failed error final => exact .refused entered
      | planned steps =>
          rw [writeNode_of_planned entered] at ends ⊢
          have returns := returns_performAll induction ends
          cases performed : performAll protocol (writeNode graph protocol depth) steps
              (trace.record (.begins id)) with
          | complete middle =>
              rw [performed] at returns
              exact .written entered returns .done
          | failed error final =>
              rw [performed] at returns
              exact .brokenOff entered returns

end Trace

end PickleTrial
