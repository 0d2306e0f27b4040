import Mathlib.Data.List.Cycle
import PickleTrial.Proofs.Encoding.Delivery
import PickleTrial.Proofs.Encoding.Recursion
import PickleTrial.Proofs.Encoding.Storing

/-! When encoding ends. Nodes that lie within each other while the encoding goes on form a path. A
list or dict is on it once, since it is fetched where it is met again, and between two of them a
node that is there twice comes back to itself for ever: what its items wrote the first time is
only fetched the second time. So a path that is longer than the bound of the graph never ends. -/

namespace PickleTrial

namespace Protocol

variable {protocol : Protocol}

/-- Whether a node is remembered before the nodes within it are written. -/
def remembersFirst (protocol : Protocol) : Node → Bool
  | .list _ | .dict _ => true
  | .set _ => 4 ≤ protocol.version
  | _ => false

private theorem glue_of_takesSlot {id : NodeId} {node : Node} {steps : List Step}
    (slotless : node.takesSlot = false) (plan : protocol.plan id node = .ok steps) :
    ∀ step ∈ steps, Glue protocol step := by
  cases shape_of_plan plan with
  | scalar _ glue => exact glue
  | storedFirst takesSlot => simp [slotless] at takesSlot
  | oldSet old =>
      rcases old with ⟨-, items, rfl⟩
      cases slotless
  | tuple nonempty tuple =>
      subst tuple
      simp [Node.takesSlot, nonempty] at slotless

theorem mem_children_of_plan {id child : NodeId} {node : Node} {steps : List Step}
    (plan : protocol.plan id node = .ok steps) (member : .node child ∈ steps) :
    child ∈ node.children := by
  rcases planned_of_mem_plan plan (.node child) member with (glue | inside) | _ | _
  · cases glue
  · exact inside

/-- A plan that stores its own node first, and nodes within only after it, has the slot in front of
any node within. -/
private theorem before_of_storedFirst {id child : NodeId} {node : Node} {before after : List Step}
    (plan : protocol.plan id node = .ok (before ++ .node child :: after))
    (takesSlot : node.takesSlot = true) (newer : ¬MadeOfList protocol node)
    (noTuple : ∀ items, node ≠ .tuple items) :
    .remember (some (.node id)) ∈ before ∧
      ∀ step ∈ before, Inner protocol node.children step ∨ step = .remember (some (.node id)) := by
  generalize equal : before ++ .node child :: after = steps at plan
  cases shape_of_plan plan with
  | scalar slotless => simp [takesSlot] at slotless
  | oldSet old => exact absurd old newer
  | tuple _ tuple => exact absurd tuple (noTuple _)
  | storedFirst _ _ glue inner =>
      -- The node within is not the slot itself, and what is in front of the slot is no node.
      rcases List.append_eq_append_iff.1 equal with ⟨rest, rfl, own⟩ | ⟨rest, rfl, own⟩
      · rcases List.cons_eq_append_iff.1 own with ⟨rfl, same⟩ | ⟨rest, rfl, rfl⟩
        · cases same
        · cases (List.forall_mem_append.1 glue).2 (.node child) List.mem_cons_self
      · rcases List.cons_eq_append_iff.1 own with ⟨rfl, same⟩ | ⟨rest, rfl, rfl⟩
        · cases same
        · simp only [List.forall_mem_append, List.forall_mem_cons] at inner ⊢
          refine ⟨by simp, fun step member => Or.inl (.glue (glue step member)), by simp,
            fun step member => Or.inl (inner.1 step member)⟩

/-- What is in front of a step is in front of the last step. -/
private theorem forall_mem_before {held : Step → Prop} {step last : Step}
    {before after all : List Step}
    (equal : before ++ step :: after = all ++ [last]) (each : ∀ step ∈ all, held step) :
    ∀ step ∈ before, held step := by
  intro other member
  have within := congrArg List.dropLast equal
  rw [List.dropLast_append_of_ne_nil (List.cons_ne_nil _ _), List.dropLast_concat] at within
  exact each other (within ▸ List.mem_append_left _ member)

/-- What a plan writes before a node within: the slot of its own node, if that is remembered
first, and beside it what any plan may hold. -/
private theorem before_of_plan {id child : NodeId} {node : Node} {before after : List Step}
    (plan : protocol.plan id node = .ok (before ++ .node child :: after)) :
    (protocol.remembersFirst node = true ∧ .remember (some (.node id)) ∈ before ∧
        ∀ step ∈ before, Inner protocol node.children step ∨
          step = .remember (some (.node id))) ∨
      protocol.remembersFirst node = false ∧
        ∀ step ∈ before, Inner protocol node.children step := by
  have inside : child ∈ node.children := mem_children_of_plan plan (by simp)
  cases node with
  | list => exact Or.inl ⟨rfl, before_of_storedFirst plan rfl (by simp [MadeOfList]) (by simp)⟩
  | dict => exact Or.inl ⟨rfl, before_of_storedFirst plan rfl (by simp [MadeOfList]) (by simp)⟩
  | set items =>
      by_cases recent : 4 ≤ protocol.version
      · exact Or.inl ⟨by simpa [remembersFirst] using recent,
          before_of_storedFirst plan rfl (fun old => Nat.not_lt.2 recent old.1) (by simp)⟩
      · refine Or.inr ⟨by simpa [remembersFirst] using recent, ?_⟩
        generalize equal : before ++ .node child :: after = steps at plan
        cases shape_of_plan plan with
        | scalar slotless => cases slotless
        | oldSet _ inner => exact forall_mem_before equal inner
        | tuple _ tuple => cases tuple
        | storedFirst _ newer => exact absurd ⟨Nat.lt_of_not_le recent, items, rfl⟩ newer
  | tuple items =>
      refine Or.inr ⟨rfl, ?_⟩
      generalize equal : before ++ .node child :: after = steps at plan
      cases hasPlan_of_plan plan with
      | emptyTuple => cases inside
      | tuple => exact forall_mem_before equal (allowed_tupleItems .glue (inner_items items))
  | _ => cases inside

end Protocol

namespace Graph

variable {graph : Graph} {protocol : Protocol} {root : NodeId}

/-- Whether a position holds a node that is remembered before the nodes within it are written. -/
def anchors (graph : Graph) (protocol : Protocol) (id : NodeId) : Bool :=
  (graph.node? id).any protocol.remembersFirst

private theorem anchors_eq {id : NodeId} {node : Node} (present : graph.node? id = some node) :
    graph.anchors protocol id = protocol.remembersFirst node := by
  rw [anchors, present]
  rfl

/-- Every cycle that is met from the root holds such a node. -/
def CyclesAnchored (graph : Graph) (protocol : Protocol) (root : NodeId) : Prop :=
  ∀ cycle : Cycle NodeId, cycle.Chain graph.RefersTo →
    ∀ id ∈ cycle, graph.Reaches root id → ∃ other ∈ cycle, graph.anchors protocol other

/-- A scalar that can be written. -/
def Immediate (graph : Graph) (protocol : Protocol) (id : NodeId) : Prop :=
  ∃ node steps, graph.node? id = some node ∧ node.takesSlot = false ∧
    protocol.plan id node = .ok steps

end Graph

namespace Trace

variable {graph : Graph} {protocol : Protocol} {write : NodeId → Trace → Outcome}

/-! ## Steps that give no node a slot -/

private theorem exists_perform_glue (write : NodeId → Trace → Outcome) {step : Step}
    (glue : Protocol.Glue protocol step) (trace : Trace) :
    ∃ final, trace.perform protocol write step = .complete final := by
  cases glue <;> exact ⟨_, rfl⟩

theorem exists_performAll_glue (write : NodeId → Trace → Outcome) {steps : List Step}
    (glue : ∀ step ∈ steps, Protocol.Glue protocol step) (trace : Trace) :
    ∃ final, performAll protocol write steps trace = .complete final := by
  induction steps generalizing trace with
  | nil => exact ⟨trace, rfl⟩
  | cons step rest induction =>
      have parts := List.forall_mem_cons.1 glue
      rcases exists_perform_glue write parts.1 trace with ⟨middle, performed⟩
      rcases induction parts.2 middle with ⟨final, performedRest⟩
      exact ⟨final, performAll_cons.2 ⟨middle, performed, performedRest⟩⟩

/-- A step that gives no node a slot: what it meets has one, or takes none. -/
inductive Idle (graph : Graph) (protocol : Protocol) (trace : Trace) : Step → Prop
  | glue {step : Step} : Protocol.Glue protocol step → Idle graph protocol trace step
  | stored {id : NodeId} : trace.Stored id → Idle graph protocol trace (.node id)
  | immediate {id : NodeId} : graph.Immediate protocol id → Idle graph protocol trace (.node id)

private theorem Idle.mono {first second : Trace} {step : Step}
    (grown : ∀ id, first.Stored id → second.Stored id) (idle : Idle graph protocol first step) :
    Idle graph protocol second step := by
  cases idle with
  | glue glue => exact .glue glue
  | stored stored => exact .stored (grown _ stored)
  | immediate immediate => exact .immediate immediate

/-- What writing leads to where no node is given a slot. -/
private def Passed (trace : Trace) (outcome : Outcome) : Prop :=
  outcome.isEndless = true ∨
    ∃ final, outcome = .complete final ∧ ∀ id, final.Stored id ↔ trace.Stored id

private theorem passed_stored {depth : Nat} {id : NodeId} {trace : Trace}
    (stored : trace.Stored id) : Passed trace (writeNode graph protocol depth id trace) := by
  rcases Option.ne_none_iff_exists'.1 stored with ⟨slot, found⟩
  cases depth with
  | zero => exact Or.inl rfl
  | succ depth =>
      right
      rw [writeNode_succ, enter, found]
      exact ⟨_, rfl, fun _ => Iff.rfl⟩

private theorem passed_immediate {depth : Nat} {id : NodeId} (trace : Trace)
    (immediate : graph.Immediate protocol id) :
    Passed trace (writeNode graph protocol depth id trace) := by
  by_cases stored : trace.Stored id
  · exact passed_stored stored
  · rcases immediate with ⟨node, steps, present, slotless, plan⟩
    cases depth with
    | zero => exact Or.inl rfl
    | succ depth =>
        right
        have glue := Protocol.glue_of_takesSlot slotless plan
        rcases exists_performAll_glue (writeNode graph protocol depth) glue
          (trace.record (.begins id)) with ⟨final, performed⟩
        rw [writeNode_of_planned (enter_planned.2 ⟨not_not.1 stored, node, present, plan⟩)]
        exact ⟨final, performed, fun id => (Aside.performAll glue performed).stored id⟩

private theorem passed_performAll (depth : Nat) {steps : List Step} {trace : Trace}
    (idle : ∀ step ∈ steps, Idle graph protocol trace step) :
    Passed trace (performAll protocol (writeNode graph protocol depth) steps trace) := by
  induction steps generalizing trace with
  | nil => exact Or.inr ⟨trace, rfl, fun _ => Iff.rfl⟩
  | cons step rest induction =>
      have parts := List.forall_mem_cons.1 idle
      have first : Passed trace
          (trace.perform protocol (writeNode graph protocol depth) step) := by
        cases parts.1 with
        | stored stored => exact passed_stored stored
        | immediate immediate => exact passed_immediate trace immediate
        | glue glue =>
            rcases exists_perform_glue (writeNode graph protocol depth) glue trace with
                ⟨final, performed⟩
            exact Or.inr ⟨final, performed, fun id => (Aside.perform glue performed).stored id⟩
      rw [performAll]
      rcases first with endless | ⟨middle, performed, same⟩
      · left
        cases outcome : trace.perform protocol (writeNode graph protocol depth) step with
        | complete middle => rw [outcome] at endless; cases endless
        | failed error final => rwa [outcome] at endless
      · rw [performed]
        have later : ∀ step ∈ rest, Idle graph protocol middle step :=
          fun step member => (parts.2 step member).mono fun id => (same id).2
        rcases induction later with endless | ⟨final, performed, sameRest⟩
        · exact Or.inl endless
        · exact Or.inr ⟨final, performed, fun id => (sameRest id).trans (same id)⟩

/-! ## Nodes that come back to themselves -/

/-- A node that is not remembered first comes to a node within, and what its plan writes before
gives no node a slot any more. -/
def ComesTo (graph : Graph) (protocol : Protocol) (trace : Trace) (id child : NodeId) : Prop :=
  ∃ node before after, graph.node? id = some node ∧ protocol.remembersFirst node = false ∧
    protocol.plan id node = .ok (before ++ .node child :: after) ∧
      ∀ step ∈ before, Idle graph protocol trace step

namespace ComesTo

variable {trace first second : Trace} {id child : NodeId}

private theorem mono (grown : ∀ id, first.Stored id → second.Stored id)
    (comesTo : ComesTo graph protocol first id child) :
    ComesTo graph protocol second id child := by
  rcases comesTo with ⟨node, before, after, present, late, plan, idle⟩
  exact ⟨node, before, after, present, late, plan, fun step member => (idle step member).mono grown⟩

private theorem refersTo (comesTo : ComesTo graph protocol trace id child) :
    graph.RefersTo id child := by
  rcases comesTo with ⟨node, before, after, present, -, plan, -⟩
  exact ⟨node, present, Protocol.mem_children_of_plan plan (by simp)⟩

private theorem anchors_eq_false (comesTo : ComesTo graph protocol trace id child) :
    graph.anchors protocol id = false := by
  rcases comesTo with ⟨node, before, after, present, late, -⟩
  rwa [Graph.anchors_eq present]

private theorem lt_size (comesTo : ComesTo graph protocol trace id child) : id < graph.size := by
  rcases comesTo with ⟨node, before, after, present, -⟩
  exact (Array.getElem?_eq_some_iff.1 present).1

end ComesTo

/-- Nodes without slots that come to each other in a circle are never written to their end. -/
private theorem isEndless_of_comesTo (circle : NodeId → Prop) {trace : Trace}
    (closed : ∀ id, circle id → ¬trace.Stored id ∧
      ∃ child, circle child ∧ ComesTo graph protocol trace id child)
    {depth : Nat} {id : NodeId} (member : circle id) {later : Trace}
    (same : ∀ id, later.Stored id ↔ trace.Stored id) :
    (writeNode graph protocol depth id later).isEndless = true := by
  -- On the bound: what leads to the child of the circle gives no slot, so the next round begins
  -- with the same nodes without slots.
  induction depth generalizing id later with
  | zero => rfl
  | succ depth induction =>
      rcases closed id member with ⟨missing, child, inCircle, comesTo⟩
      rcases comesTo.mono fun id => (same id).2 with ⟨node, before, after, present, -, plan, idle⟩
      have unstored : ¬later.Stored id := fun stored => missing ((same id).1 stored)
      rw [writeNode_of_planned (enter_planned.2 ⟨not_not.1 unstored, node, present, plan⟩)]
      have kept : ∀ other, later.Stored other → (later.record (.begins id)).Stored other :=
        fun _ stored => stored
      have begun : ∀ step ∈ before, Idle graph protocol (later.record (.begins id)) step :=
        fun step inBefore => (idle step inBefore).mono kept
      rw [Outcome.isEndless_iff]
      rcases passed_performAll depth begun with endless | ⟨middle, performed, unchanged⟩
      · rcases Outcome.isEndless_iff.1 endless with ⟨final, failed⟩
        rcases performAll_failed.1 failed with ⟨first, node, rest, middle, rfl, performed, written⟩
        exact ⟨final, performAll_failed.2
          ⟨first, node, rest ++ .node child :: after, middle, by simp, performed, written⟩⟩
      · have endless := induction inCircle fun other => (unchanged other).trans (same other)
        rcases Outcome.isEndless_iff.1 endless with ⟨final, written⟩
        exact ⟨final, performAll_failed.2 ⟨before, child, after, middle, rfl, performed, written⟩⟩

/-! ## What is finished -/

/-- What was given a slot at its end is settled with all it refers to. -/
def Finished (graph : Graph) (protocol : Protocol) (trace : Trace) : Prop :=
  ∀ id child, trace.Stored id → graph.anchors protocol id = false → graph.RefersTo id child →
    Settled graph trace child

/-- Writing keeps slots and leaves what is finished finished. -/
private def KeepsFinished (graph : Graph) (protocol : Protocol) (first second : Trace) : Prop :=
  (∀ id, first.Stored id → second.Stored id) ∧
    (Finished graph protocol first → Finished graph protocol second)

private theorem keepsFinished_aside {first second : Trace} (aside : Aside protocol first second) :
    KeepsFinished graph protocol first second where
  left id stored := (aside.stored id).2 stored
  right finished id child stored late refers :=
    (finished id child ((aside.stored id).1 stored) late refers).imp_left (aside.stored child).2

private theorem keepsFinished_node {depth : Nat} {id : NodeId} {first second : Trace}
    (complete : writeNode graph protocol depth id first = .complete second) :
    KeepsFinished graph protocol first second := by
  have settles := settles_writeNode complete
  refine ⟨settles.grown, fun finished other child stored late refers => ?_⟩
  by_cases earlier : first.Stored other
  · exact (finished other child earlier late refers).imp_left (settles.grown child)
  · exact settles.children other child stored earlier refers

private theorem keepsFinished_own {id : NodeId} (anchor : graph.anchors protocol id = true)
    (trace : Trace) :
    KeepsFinished graph protocol trace (trace.remember protocol (some (.node id))) := by
  have grown (other : NodeId) (stored : trace.Stored other) :
      (trace.remember protocol (some (.node id))).Stored other :=
    (stored_remember_node trace id other).2 (Or.inr stored)
  refine ⟨grown, fun finished other child stored late refers => ?_⟩
  rcases (stored_remember_node trace id other).1 stored with rfl | earlier
  · rw [anchor] at late
    cases late
  · exact (finished other child earlier late refers).imp_left (grown child)

private theorem keepsFinished_performAll {depth : Nat} (id : NodeId) {node : Node}
    {steps : List Step}
    (allowed : ∀ step ∈ steps, Protocol.Inner protocol node.children step ∨
      step = .remember (some (.node id)) ∧ graph.anchors protocol id = true)
    {first second : Trace}
    (performed : performAll protocol (writeNode graph protocol depth) steps first =
      .complete second) : KeepsFinished graph protocol first second := by
  refine performAll_related (fun _ => ⟨fun _ stored => stored, fun finished => finished⟩)
    (fun left right => ⟨fun id stored => right.1 id (left.1 id stored), right.2 ∘ left.2⟩)
    ?_ performed
  intro step member before after performedStep
  rcases allowed step member with (glue | inside) | ⟨rfl, anchor⟩
  · exact keepsFinished_aside (Aside.perform glue performedStep)
  · exact keepsFinished_node performedStep
  · cases performedStep
    exact keepsFinished_own anchor before

/-- A node that is remembered first has its slot before a node within is written. -/
private theorem keepsFinished_anchor {depth : Nat} {id : NodeId} {node : Node} {steps : List Step}
    (anchor : graph.anchors protocol id = true) (own : .remember (some (.node id)) ∈ steps)
    (allowed : ∀ step ∈ steps, Protocol.Inner protocol node.children step ∨
      step = .remember (some (.node id)))
    {trace final : Trace}
    (performed : performAll protocol (writeNode graph protocol depth) steps
      (trace.record (.begins id)) = .complete final) :
    (∀ other, trace.Stored other → final.Stored other) ∧
      (Finished graph protocol trace → Finished graph protocol final) ∧ final.Stored id := by
  have anchored : ∀ step ∈ steps, Protocol.Inner protocol node.children step ∨
      step = .remember (some (.node id)) ∧ graph.anchors protocol id = true :=
    fun step member => (allowed step member).imp_right fun same => ⟨same, anchor⟩
  have keeps := keepsFinished_performAll id anchored performed
  refine ⟨keeps.1, keeps.2, ?_⟩
  rcases List.append_of_mem own with ⟨before, after, rfl⟩
  rcases performAll_append.1 performed with ⟨earlier, -, performed⟩
  rcases performAll_cons.1 performed with ⟨later, taken, performed⟩
  cases taken
  have behind := keepsFinished_performAll id
    (fun step member => anchored step (by simp [member])) performed
  exact behind.1 id (stored_remember_self earlier id)

/-- What is written before a node within gives no node a slot any more. -/
private theorem idle_of_performAll {depth : Nat} {node : Node} {steps : List Step}
    (inner : ∀ step ∈ steps, Protocol.Inner protocol node.children step) {first second : Trace}
    (performed : performAll protocol (writeNode graph protocol depth) steps first =
      .complete second) : ∀ step ∈ steps, Idle graph protocol second step := by
  intro step member
  cases inner step member with
  | glue glue => exact .glue glue
  | node inside =>
      rename_i child
      rcases List.append_of_mem member with ⟨before, after, rfl⟩
      simp only [List.forall_mem_append, List.forall_mem_cons] at inner
      rcases performAll_append.1 performed with ⟨middle, -, performed⟩
      rcases performAll_cons.1 performed with ⟨later, written, performed⟩
      have behind : KeepsFinished graph protocol later second :=
        keepsFinished_performAll child (fun step inAfter =>
          Or.inl (inner.2.2 step inAfter)) performed
      by_cases stored : later.Stored child
      · exact .stored (behind.1 child stored)
      · have unstored : ¬middle.Stored child := fun earlier =>
          stored ((settles_writeNode written).grown child earlier)
        have slotless := (settles_writeNode written).settled.resolve_left stored
        rcases slotless with ⟨node, present, takesNone⟩
        rcases exists_plan_of_complete written (not_not.1 unstored) with ⟨same, steps, found, plan⟩
        cases present.symm.trans found
        exact .immediate ⟨node, steps, present, takesNone, plan⟩

/-! ## The bound -/

/-- The nodes that are still to be remembered before the nodes within them are written. -/
def awaited (graph : Graph) (protocol : Protocol) (trace : Trace) : Finset NodeId :=
  (Finset.range graph.size).filter fun id =>
    graph.anchors protocol id = true ∧ trace.memo.find? (.node id) = none

private theorem awaited_anti {first second : Trace}
    (grown : ∀ id, first.Stored id → second.Stored id) :
    awaited graph protocol second ⊆ awaited graph protocol first := by
  intro id member
  simp only [awaited, Finset.mem_filter] at member ⊢
  refine ⟨member.1, member.2.1, ?_⟩
  by_contra stored
  exact grown id stored member.2.2

private theorem card_awaited_lt {first second : Trace} {id : NodeId} {node : Node}
    (grown : ∀ id, first.Stored id → second.Stored id) (present : graph.node? id = some node)
    (anchor : graph.anchors protocol id = true) (missing : ¬first.Stored id)
    (stored : second.Stored id) :
    (awaited graph protocol second).card < (awaited graph protocol first).card := by
  apply Finset.card_lt_card
  refine (Finset.ssubset_iff_of_subset (awaited_anti grown)).2 ⟨id, ?_, ?_⟩
  · simp only [awaited, Finset.mem_filter, Finset.mem_range]
    exact ⟨(Array.getElem?_eq_some_iff.1 present).1, anchor, not_not.1 missing⟩
  · simp only [awaited, Finset.mem_filter]
    exact fun member => stored member.2.2

private theorem card_awaited_le (trace : Trace) :
    (awaited graph protocol trace).card ≤ graph.size :=
  (Finset.card_filter_le _ _).trans (Finset.card_range _).le

/-- Writing a node ends at no bound, and comes to a cycle without a node that is remembered
first. -/
structure NeverEnds (graph : Graph) (protocol : Protocol) (id : NodeId) (trace : Trace) : Prop where
  cycle : ∃ cycle : Cycle NodeId, cycle.Chain graph.RefersTo ∧
    (∃ other ∈ cycle, graph.Reaches id other) ∧
      ∀ other ∈ cycle, graph.anchors protocol other = false
  endless : ∀ depth, (writeNode graph protocol depth id trace).isEndless = true

/-- Nodes that are not remembered first and lie within each other, the innermost first, the way to
each of which gives no node a slot any more. -/
abbrev Path (graph : Graph) (protocol : Protocol) (trace : Trace) (path : List NodeId) : Prop :=
  path.IsChain fun inner outer => ComesTo graph protocol trace outer inner

namespace Path

variable {trace : Trace} {id : NodeId} {path : List NodeId}

private theorem exists_comesTo (within : Path graph protocol trace (id :: path)) {outer : NodeId}
    (member : outer ∈ path) :
    ∃ inner ∈ id :: path, ComesTo graph protocol trace outer inner := by
  induction path generalizing id with
  | nil => cases member
  | cons head rest induction =>
      rcases List.isChain_cons_cons.1 within with ⟨comesTo, behind⟩
      rcases List.mem_cons.1 member with rfl | later
      · exact ⟨id, List.mem_cons_self, comesTo⟩
      · rcases induction behind later with ⟨inner, inRest, comesTo⟩
        exact ⟨inner, List.mem_cons_of_mem _ inRest, comesTo⟩

private theorem mono {later : Trace} (grown : ∀ id, trace.Stored id → later.Stored id)
    (within : Path graph protocol trace path) : Path graph protocol later path :=
  within.imp fun _ _ comesTo => comesTo.mono grown

private theorem length_le (within : Path graph protocol trace (id :: path))
    (distinct : path.Nodup) : path.length ≤ graph.size := by
  have allocated : path.toFinset ⊆ Finset.range graph.size := by
    intro outer member
    rw [List.mem_toFinset] at member
    rcases within.exists_comesTo member with ⟨inner, -, comesTo⟩
    exact Finset.mem_range.2 comesTo.lt_size
  calc path.length = path.toFinset.card := (List.toFinset_card_of_nodup distinct).symm
    _ ≤ (Finset.range graph.size).card := Finset.card_le_card allocated
    _ = graph.size := Finset.card_range _

/-- A node that is met again on its own path comes back to itself for ever. -/
private theorem neverEnds (within : Path graph protocol trace (id :: path))
    (finished : Finished graph protocol trace) (missing : ¬trace.Stored id) (again : id ∈ path) :
    NeverEnds graph protocol id trace := by
  rcases List.append_of_mem again with ⟨between, outside, rfl⟩
  have round : Path graph protocol trace (id :: (between ++ [id])) :=
    (List.isChain_cons_split.1 within).1
  have here : id ∈ between ++ [id] := by simp
  have comes {outer : NodeId} (member : outer ∈ between ++ [id]) :
      ∃ inner ∈ between ++ [id], ComesTo graph protocol trace outer inner := by
    rcases round.exists_comesTo member with ⟨inner, inRound, comesTo⟩
    rcases List.mem_cons.1 inRound with rfl | inside
    · exact ⟨inner, here, comesTo⟩
    · exact ⟨inner, inside, comesTo⟩
  -- A node of the round that had a slot would have been finished, and so would the next.
  have unsettled : ∀ outer ∈ between ++ [id], ¬Settled graph trace outer := by
    refine List.IsChain.cons_induction (fun outer => ¬Settled graph trace outer) _ round ?_ ?_
    · intro inner outer comesTo unsettled settled
      rcases settled with stored | slotless
      · exact unsettled (finished outer inner stored comesTo.anchors_eq_false comesTo.refersTo)
      · exact slotless.not_refersTo comesTo.refersTo
    · intro settled
      rcases comes here with ⟨inner, -, comesTo⟩
      exact (settled.resolve_left missing).not_refersTo comesTo.refersTo
  refine ⟨⟨↑(id :: between.reverse), ?_, ⟨id, ?_, .refl⟩, ?_⟩, fun depth => ?_⟩
  · have reversed : (id :: (between ++ [id])).reverse = id :: (between.reverse ++ [id]) := by simp
    rw [Cycle.chain_coe_cons, ← reversed, List.isChain_reverse]
    exact round.imp fun _ _ comesTo => comesTo.refersTo
  · simp
  · intro outer member
    have inside : outer ∈ between ++ [id] := by simpa [or_comm] using member
    rcases comes inside with ⟨inner, -, comesTo⟩
    exact comesTo.anchors_eq_false
  · have closed (outer : NodeId) (member : outer ∈ between ++ [id]) : ¬trace.Stored outer ∧
        ∃ inner, inner ∈ between ++ [id] ∧ ComesTo graph protocol trace outer inner :=
      ⟨fun stored => unsettled outer member (Or.inl stored), comes member⟩
    exact isEndless_of_comesTo (· ∈ between ++ [id]) closed here fun _ => Iff.rfl

/-- A path goes on to a node within its innermost node, if that is not remembered first. -/
private theorem longer {depth : Nat} {child : NodeId} {node : Node} {before after : List Step}
    {middle : Trace} (within : Path graph protocol trace (id :: path))
    (present : graph.node? id = some node) (late : protocol.remembersFirst node = false)
    (plan : protocol.plan id node = .ok (before ++ .node child :: after))
    (inner : ∀ step ∈ before, Protocol.Inner protocol node.children step)
    (grown : ∀ other, trace.Stored other → middle.Stored other)
    (performed : performAll protocol (writeNode graph protocol depth) before
      (trace.record (.begins id)) = .complete middle) :
    Path graph protocol middle (child :: id :: path) := by
  have idle := idle_of_performAll inner performed
  have comesTo : ComesTo graph protocol middle id child :=
    ⟨node, before, after, present, late, plan, idle⟩
  exact List.isChain_cons_cons.2 ⟨comesTo, within.mono grown⟩

end Path

/-- What comes to a node that never ends does not end. -/
private theorem NeverEnds.outer {depth : Nat} {id child : NodeId} {before after : List Step}
    {trace middle : Trace}
    (planned : enter graph protocol id trace = .planned (before ++ .node child :: after))
    (performed : performAll protocol (writeNode graph protocol depth) before
      (trace.record (.begins id)) = .complete middle)
    (never : NeverEnds graph protocol child middle) : NeverEnds graph protocol id trace := by
  rcases enter_planned.1 planned with ⟨-, node, present, plan⟩
  refine ⟨?_, fun deeper => ?_⟩
  · rcases never.cycle with ⟨cycle, chain, ⟨other, member, path⟩, late⟩
    exact ⟨cycle, chain, ⟨other, member,
      .head ⟨node, present, Protocol.mem_children_of_plan plan (by simp)⟩ path⟩, late⟩
  · by_contra ends
    rw [Bool.not_eq_true] at ends
    have enough : (writeNode graph protocol (max deeper depth + 1) id trace).isEndless = false := by
      rwa [refines_writeNode (by omega) id trace ends]
    have same : performAll protocol (writeNode graph protocol (max deeper depth)) before
        (trace.record (.begins id)) = .complete middle := by
      rw [← performed]
      refine (refines_writeNode (by omega)).performAll ?_
      rw [performed]
      rfl
    rcases Outcome.isEndless_iff.1 (never.endless (max deeper depth)) with ⟨final, written⟩
    rw [writeNode_of_planned planned, performAll_failed.2
      ⟨before, child, after, middle, rfl, same, written⟩] at enough
    cases enough

/-- Where a bound is met that leaves room for a path without repetition between any two nodes that
are still to be remembered first, no bound is enough. -/
private theorem neverEnds_of_isEndless {depth : Nat} {id : NodeId} {trace : Trace}
    {path : List NodeId} (finished : Finished graph protocol trace)
    (within : Path graph protocol trace (id :: path)) (distinct : path.Nodup)
    (room : (awaited graph protocol trace).card * (graph.size + 1) + graph.size + 1 ≤
      depth + path.length)
    (endless : (writeNode graph protocol depth id trace).isEndless = true) :
    NeverEnds graph protocol id trace := by
  induction depth generalizing id trace path with
  | zero =>
      have short := within.length_le distinct
      omega
  | succ depth induction =>
      cases entered : enter graph protocol id trace with
      | decided outcome =>
          rw [writeNode_of_decided entered, not_isEndless_of_decided entered] at endless
          cases endless
      | planned steps =>
          rw [writeNode_of_planned entered] at endless
          rcases Outcome.isEndless_iff.1 endless with ⟨final, failed⟩
          rcases performAll_failed.1 failed with
              ⟨before, child, after, middle, rfl, performed, written⟩
          rcases enter_planned.1 entered with ⟨missing, node, present, plan⟩
          have unstored : ¬trace.Stored id := not_not.2 missing
          have endlessChild := Outcome.isEndless_iff.2 ⟨final, written⟩
          by_cases again : id ∈ path
          · exact within.neverEnds finished unstored again
          -- The child is written within one level less. So `room` has to stay, with one node
          -- awaited less in front of an empty path, or with a path that is longer by one.
          apply NeverEnds.outer entered performed
          rcases Protocol.before_of_plan plan with ⟨first, own, allowed⟩ | ⟨late, inner⟩
          · -- A node that is remembered first is awaited no more, and a new path begins.
            have anchor : graph.anchors protocol id = true := by rwa [Graph.anchors_eq present]
            rcases keepsFinished_anchor anchor own allowed performed with ⟨grown, kept, stored⟩
            have fewer := card_awaited_lt grown present anchor unstored stored
            have less := Nat.mul_le_mul_right (graph.size + 1) (Nat.succ_le_of_lt fewer)
            have short := within.length_le distinct
            refine induction (kept finished) (List.isChain_singleton child) .nil ?_ endlessChild
            rw [Nat.succ_mul] at less
            simp only [List.length_nil]
            omega
          · have keeps : KeepsFinished graph protocol (trace.record (.begins id)) middle :=
              keepsFinished_performAll id (fun step member => Or.inl (inner step member)) performed
            have grown : ∀ other, trace.Stored other → middle.Stored other := keeps.1
            have fewer : (awaited graph protocol middle).card ≤
                (awaited graph protocol trace).card := Finset.card_le_card (awaited_anti grown)
            have less := Nat.mul_le_mul_right (graph.size + 1) fewer
            refine induction (keeps.2 finished)
              (within.longer present late plan inner grown performed)
              (List.nodup_cons.2 ⟨again, distinct⟩) ?_ endlessChild
            rw [List.length_cons]
            omega

/-- The trace with which an encoding begins. -/
def start : Trace :=
  ({ : Trace }).record .split

private theorem finished_start : Finished graph protocol start :=
  fun id _ stored => absurd (Memo.find?_empty (.node id)) stored

end Trace

/-! ## Whole values -/

namespace Graph

variable {graph : Graph} {protocol : Protocol} {root : NodeId} {outcome : Trace.Outcome}

/-- Encoding without a bound ends. -/
def Ends (graph : Graph) (protocol : Protocol) (root : NodeId) : Prop :=
  ∃ outcome, Trace.Returns graph protocol [.node root] Trace.start outcome

theorem neverEnds_of_trace (endless : (graph.trace protocol root).isEndless = true) :
    Trace.NeverEnds graph protocol root Trace.start := by
  refine Trace.neverEnds_of_isEndless Trace.finished_start (List.isChain_singleton root) .nil ?_
    endless
  have few : (Trace.awaited graph protocol Trace.start).card ≤ graph.size :=
    Trace.card_awaited_le Trace.start
  have less := Nat.mul_le_mul_right (graph.size + 1) few
  rw [depthBound, Nat.succ_mul]
  simp only [List.length_nil]
  omega

/-- What is written first is the plan of the root. -/
theorem exists_trace_eq_of_plan {node : Node} {steps : List Step}
    (present : graph.node? root = some node) (plan : protocol.plan root node = .ok steps) :
    ∃ depth, graph.trace protocol root =
      Trace.performAll protocol (Trace.writeNode graph protocol depth) steps
        (Trace.start.record (.begins root)) := by
  have planned : Trace.enter graph protocol root Trace.start = .planned steps :=
    Trace.enter_planned.2 ⟨Memo.find?_empty (.node root), node, present, plan⟩
  rw [trace, depthBound, Nat.succ_mul]
  exact ⟨_, Trace.writeNode_of_planned planned _⟩

/-- The bound of a graph is met only where every bound is. -/
private theorem trace_eq_of_depth {depth : Nat}
    (ends : (Trace.writeNode graph protocol depth root Trace.start).isEndless = false) :
    graph.trace protocol root = Trace.writeNode graph protocol depth root Trace.start := by
  have within : (graph.trace protocol root).isEndless = false := by
    by_contra endless
    rw [Bool.not_eq_false] at endless
    rw [(neverEnds_of_trace endless).endless depth] at ends
    cases ends
  have deeper : depth ≤ max depth graph.depthBound := le_max_left _ _
  rw [← Trace.refines_writeNode deeper root Trace.start ends]
  have more : graph.depthBound ≤ max depth graph.depthBound := le_max_right _ _
  exact (Trace.refines_writeNode more root Trace.start within).symm

/-- Encoding within the bound of a graph comes out as encoding without a bound does. -/
theorem returns_iff : Trace.Returns graph protocol [.node root] Trace.start outcome ↔
    graph.trace protocol root = outcome ∧ outcome.isEndless = false := by
  constructor
  · intro returns
    refine ⟨?_, returns.not_isEndless⟩
    rcases returns.exists_depth with ⟨depth, enough⟩
    have whole := enough depth (Nat.le_refl _)
    have same : Trace.writeNode graph protocol depth root Trace.start = outcome := by
      rw [Trace.performAll, Trace.perform] at whole
      cases written : Trace.writeNode graph protocol depth root Trace.start with
      | complete final => rwa [written] at whole
      | failed error final => rwa [written] at whole
    rw [← same]
    exact trace_eq_of_depth (same ▸ returns.not_isEndless)
  · intro given
    rcases given with ⟨rfl, ends⟩
    exact Trace.returns_writeNode ends

theorem ends_iff : graph.Ends protocol root ↔ (graph.trace protocol root).isEndless = false := by
  constructor
  · intro given
    rcases given with ⟨outcome, returns⟩
    rcases returns_iff.1 returns with ⟨rfl, ends⟩
    exact ends
  · exact fun ends => ⟨_, returns_iff.2 ⟨rfl, ends⟩⟩

theorem pickle_eq : graph.pickle protocol.version root =
    match graph.trace protocol root with
    | .complete trace => .ok (Stream.bytes (trace.delivery protocol))
    | .failed error _ => .error error := by
  rw [pickle_version, stream, encode]
  cases graph.trace protocol root with
  | complete trace => exact congrArg Except.ok (trace.delivered_eq protocol)
  | failed error trace => rfl

/-- Encoding ends wherever every cycle that is met from the root holds a list, a dict, or from
protocol 4 on a set: by finitely many rules the encoding comes out as it does within the bound of
the graph, with a stream or with an error of a node. -/
theorem returns_of_cyclesAnchored (anchored : graph.CyclesAnchored protocol root) :
    Trace.Returns graph protocol [.node root] Trace.start (graph.trace protocol root) ∧
      graph.pickle protocol.version root ≠ .error .endless := by
  have ends : (graph.trace protocol root).isEndless = false := by
    by_contra endless
    rw [Bool.not_eq_false] at endless
    rcases (neverEnds_of_trace endless).cycle with ⟨cycle, chain, ⟨id, member, path⟩, late⟩
    rcases anchored cycle chain id member path with ⟨other, inCycle, anchor⟩
    rw [late other inCycle] at anchor
    cases anchor
  refine ⟨returns_iff.2 ⟨rfl, ends⟩, fun endless => ?_⟩
  rw [pickle_eq] at endless
  cases outcome : graph.trace protocol root with
  | complete trace =>
      rw [outcome] at endless
      cases endless
  | failed error trace =>
      rw [outcome] at endless ends
      cases endless
      cases ends

/-- A tuple within its own list is begun again before it has a slot. -/
theorem returns_recursiveTuple :
    CyclesAnchored ⟨#[.tuple [1], .list [0]]⟩ ⟨2, by decide⟩ 0 ∧
      Trace.Returns ⟨#[.tuple [1], .list [0]]⟩ ⟨2, by decide⟩ [.node 0] Trace.start
        (trace ⟨#[.tuple [1], .list [0]]⟩ ⟨2, by decide⟩ 0) ∧
      pickle ⟨#[.tuple [1], .list [0]]⟩ 2 0 ≠ .error .endless := by
  have anchored : CyclesAnchored ⟨#[.tuple [1], .list [0]]⟩ ⟨2, by decide⟩ 0 := by
    intro cycle chain id member _
    induction cycle using Quotient.inductionOn with
    | h ids =>
    cases ids with
    | nil => cases member
    | cons first rest =>
        have refers {inner outer : NodeId}
            (refers : RefersTo ⟨#[.tuple [1], .list [0]]⟩ outer inner) : outer = 1 ∨ inner = 1 := by
          rcases refers with ⟨node, present, inside⟩
          rcases outer with _ | _ | outer
          · cases present
            exact Or.inr (List.mem_singleton.1 inside)
          · exact Or.inl rfl
          · cases present
        have round := (Cycle.chain_coe_cons _ first rest).1 chain
        have listed : 1 ∈ first :: rest := by
          cases rest with
          | nil => rcases refers round.rel with rfl | rfl <;> simp
          | cons next rest => rcases refers round.rel with rfl | rfl <;> simp
        exact ⟨1, listed, rfl⟩
  exact ⟨anchored, returns_of_cyclesAnchored anchored⟩

end Graph

end PickleTrial
