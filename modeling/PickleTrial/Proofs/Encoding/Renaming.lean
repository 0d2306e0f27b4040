import Mathlib.Data.Set.Function
import PickleTrial.Proofs.Encoding.Success

/-! Values at other positions. Two graphs whose parts met from the root differ in the positions
alone have the same streams: written side by side, the encodings take the same slots for nodes that
correspond to each other, and the slots of callables and shared strings are the same in both. -/

namespace PickleTrial

/-! ## Renaming -/

section Renaming

variable (map : NodeId → NodeId)

/-- A node whose items are found at other positions. -/
def Node.rename : Node → Node
  | .tuple items => .tuple (items.map map)
  | .list items => .list (items.map map)
  | .set items => .set (items.map map)
  | .dict entries => .dict (entries.map fun entry => (map entry.1, map entry.2))
  | node => node

def MemoKey.rename : MemoKey → MemoKey
  | .node id => .node (map id)
  | key => key

def Step.rename : Step → Step
  | .remember key => .remember (key.map (MemoKey.rename map))
  | .endTuple id count => .endTuple (map id) count
  | .node id => .node (map id)
  | step => step

def Event.rename : Event → Event
  | .begins id => .begins (map id)
  | event => event

def EncodeError.rename : EncodeError → EncodeError
  | .danglingNode id => .danglingNode (map id)
  | error => error

end Renaming

private theorem Node.children_rename (map : NodeId → NodeId) (node : Node) :
    (node.rename map).children = node.children.map map := by
  cases node with
  | dict entries => simp [rename, children, List.map_flatMap, List.flatMap_map]
  | _ => simp [rename, children]

@[simp] theorem Node.rename_id (node : Node) : node.rename (fun id => id) = node := by
  cases node <;> simp [rename]

@[simp] theorem MemoKey.rename_id (key : MemoKey) : key.rename (fun id => id) = key := by
  cases key <;> rfl

@[simp] theorem Step.rename_id (step : Step) : step.rename (fun id => id) = step := by
  cases step with
  | remember key => cases key <;> simp [rename]
  | _ => rfl

@[simp] theorem Event.rename_id (event : Event) : event.rename (fun id => id) = event := by
  cases event <;> rfl

@[simp] theorem EncodeError.rename_id (error : EncodeError) :
    error.rename (fun id => id) = error := by
  cases error <;> rfl

namespace Protocol

variable {protocol : Protocol} (map : NodeId → NodeId)

private theorem rename_of_glue {step : Step} (glue : Glue protocol step) :
    step.rename map = step := by
  cases glue <;> rfl

private theorem map_rename_of_glue {steps : List Step} (glue : ∀ step ∈ steps, Glue protocol step) :
    steps.map (Step.rename map) = steps :=
  (List.map_congr_left fun step member => rename_of_glue map (glue step member)).trans
    (List.map_id _)

private theorem map_rename_items {items : List (List Step)}
    (glue : ∀ item ∈ items, ∀ step ∈ item, Glue protocol step) :
    items.map (List.map (Step.rename map)) = items :=
  (List.map_congr_left fun item member => map_rename_of_glue map (glue item member)).trans
    (List.map_id _)

private theorem map_rename_tupleItems (items : List (List Step)) :
    (protocol.tupleItems items).map (Step.rename map) =
      protocol.tupleItems (items.map (List.map (Step.rename map))) := by
  simp only [tupleItems, List.map_append, List.length_map, List.map_flatMap, List.flatMap_map,
    List.map_cons]
  split <;> rfl

private theorem map_rename_arguments (items : List (List Step)) :
    (protocol.arguments items).map (Step.rename map) =
      protocol.arguments (items.map (List.map (Step.rename map))) := by
  rw [arguments, arguments, List.isEmpty_map]
  split
  · exact map_rename_of_glue map glue_emptyTuple
  · rw [List.map_append, map_rename_tupleItems, List.length_map]
    rfl

private theorem map_rename_call (callable : Callable) (items : List (List Step))
    (key : Option MemoKey) : (protocol.call callable items key).map (Step.rename map) =
      protocol.call callable (items.map (List.map (Step.rename map)))
        (key.map (MemoKey.rename map)) := by
  rw [call, call, List.map_append, List.map_cons, map_rename_arguments]
  rfl

private theorem map_rename_batchSteps (single : Option Opcode) (several : Opcode)
    (batch : List (List Step)) :
    (batchSteps single several batch).map (Step.rename map) =
      batchSteps single several (batch.map (List.map (Step.rename map))) := by
  rcases batch with _ | ⟨item, _ | ⟨second, rest⟩⟩ <;> cases single <;>
    simp [batchSteps, Step.rename, List.map_flatten]

private theorem map_rename_additions (single : Option Opcode) (several : Opcode)
    (items : List (List Step)) :
    (protocol.additions single several items).map (Step.rename map) =
      protocol.additions single several (items.map (List.map (Step.rename map))) := by
  rcases protocol.inBatches_or_oneByOne single with inBatches | ⟨single, oldest, rfl⟩
  · rw [additions_inBatches inBatches, additions_inBatches inBatches, batches_map,
      List.map_flatMap, List.flatMap_map]
    exact List.flatMap_congr fun batch _ => map_rename_batchSteps map single several batch
  · rw [additions_oneByOne oldest, additions_oneByOne oldest, List.map_flatMap, List.flatMap_map]
    exact List.flatMap_congr fun item _ => List.map_append

private theorem map_rename_list (items : List (List Step)) (key : Option MemoKey) :
    (protocol.list items key).map (Step.rename map) =
      protocol.list (items.map (List.map (Step.rename map))) (key.map (MemoKey.rename map)) := by
  simp only [list, List.map_append, map_rename_additions, List.map_map, Function.comp_def,
    List.map_cons, apply_ite]
  rfl

private theorem map_rename_dict (entries : List (NodeId × NodeId)) (key : Option MemoKey) :
    (protocol.dict entries key).map (Step.rename map) =
      protocol.dict (entries.map fun entry => (map entry.1, map entry.2))
        (key.map (MemoKey.rename map)) := by
  simp only [dict, List.map_append, map_rename_additions, List.map_map, Function.comp_def,
    List.map_cons, apply_ite]
  rfl

private theorem map_rename_nodes (items : List NodeId) :
    (items.map fun item => [Step.node item]).map (List.map (Step.rename map)) =
      (items.map map).map fun item => [Step.node item] := by
  simp [Step.rename]

private theorem map_rename_set (items : List NodeId) (key : Option MemoKey) :
    (protocol.set items key).map (Step.rename map) =
      protocol.set (items.map map) (key.map (MemoKey.rename map)) := by
  rw [set, set]
  split
  · rw [List.map_append, map_rename_additions, map_rename_nodes]
    rfl
  · rw [map_rename_call, List.map_singleton, map_rename_list, map_rename_nodes]
    rfl

private theorem map_rename_bytes (payload : Bytes) (key : Option MemoKey) :
    (protocol.bytes payload key).map (Step.rename map) =
      protocol.bytes payload (key.map (MemoKey.rename map)) := by
  rw [bytes, bytes]
  split
  · rfl
  · split
    · exact map_rename_call map _ _ _
    · exact map_rename_call map _ _ _

private theorem map_rename_byteArray (payload : Bytes) (key : Option MemoKey) :
    (protocol.byteArray payload key).map (Step.rename map) =
      protocol.byteArray payload (key.map (MemoKey.rename map)) := by
  rw [byteArray, byteArray]
  split
  · rfl
  · rw [map_rename_call]
    split
    · rfl
    · rw [List.map_singleton, map_rename_bytes]
      rfl

private theorem map_rename_array (value : TypedArray) (key : Option MemoKey) :
    (protocol.array value key).map (Step.rename map) =
      protocol.array value (key.map (MemoKey.rename map)) := by
  simp only [array]
  split
  · simp only [map_rename_call, List.map_cons, map_rename_bytes]
    rfl
  · simp only [map_rename_call, List.map_cons, map_rename_list,
      map_rename_items map (glue_arrayItems value)]
    rfl

/-- The plan of a node at another position, with its items at other positions. -/
private theorem plan_rename (id : NodeId) (node : Node) :
    protocol.plan (map id) (node.rename map) =
      (protocol.plan id node).map (List.map (Step.rename map)) := by
  have planned {steps renamed : List Step} (equal : steps.map (Step.rename map) = renamed) :
      Except.ok renamed =
        (Except.ok steps : Except EncodeError _).map (List.map (Step.rename map)) :=
    congrArg Except.ok equal.symm
  have packed (callable : Callable) (payload : Bytes) :
      (protocol.call callable [protocol.bytes payload none] (some (.node id))).map
          (Step.rename map) =
        protocol.call callable [protocol.bytes payload none] (some (.node (map id))) := by
    rw [map_rename_call, List.map_singleton, map_rename_bytes]
    rfl
  cases node with
  | bytes value => exact planned (map_rename_bytes map value (some (.node id)))
  | byteArray value => exact planned (map_rename_byteArray map value (some (.node id)))
  | complex re im => exact planned (map_rename_call map .complex _ (some (.node id)))
  | moment value => exact planned (packed .moment value.packed)
  | date value => exact planned (packed .date value.packed)
  | time value => exact planned (packed .time value.packed)
  | bigInt literal =>
      simp only [Node.rename, plan]
      split <;> rfl
  | decimal literal =>
      simp only [Node.rename, plan]
      split
      · exact planned (map_rename_call map .decimal _ (some (.node id)))
      · rfl
  | duration value =>
      simp only [Node.rename, plan]
      split
      · exact planned (map_rename_call map .duration _ (some (.node id)))
      · rfl
  | array value => exact planned (map_rename_array map value (some (.node id)))
  | tuple items =>
      simp only [Node.rename, plan, List.isEmpty_map]
      split
      · exact planned (map_rename_of_glue map glue_emptyTuple)
      · apply planned
        rw [List.map_append, map_rename_tupleItems, map_rename_nodes, List.length_map]
        rfl
  | list items =>
      apply planned
      rw [map_rename_list, map_rename_nodes]
      rfl
  | set items => exact planned (map_rename_set map items (some (.node id)))
  | dict entries => exact planned (map_rename_dict map entries (some (.node id)))
  | _ => rfl

end Protocol

/-! ## Encodings side by side -/

/-- A key of a node of a kind, or of no node. -/
def MemoKey.Within (met : NodeId → Prop) : MemoKey → Prop
  | .node id => met id
  | _ => True

private theorem MemoKey.rename_inj {map : NodeId → NodeId} {met : NodeId → Prop}
    (injective : Set.InjOn map {id | met id}) {first second : MemoKey} (inFirst : first.Within met)
    (inSecond : second.Within met) : first.rename map = second.rename map ↔ first = second := by
  refine ⟨fun same => ?_, congrArg _⟩
  cases first <;> cases second <;> simp_all [rename]
  exact injective inFirst inSecond same

/-- Memos that hold the same under keys that correspond to each other. -/
structure Memo.Alike (map : NodeId → NodeId) (met : NodeId → Prop) (first second : Memo) :
    Prop where
  next : second.next = first.next
  found : ∀ key, key.Within met → second.find? (key.rename map) = first.find? key

private theorem Memo.Alike.take {map : NodeId → NodeId} {met : NodeId → Prop} {first second : Memo}
    (alike : Alike map met first second) (injective : Set.InjOn map {id | met id})
    {key : Option MemoKey} (within : ∀ taken ∈ key, taken.Within met) :
    Alike map met (first.take key) (second.take (key.map (MemoKey.rename map))) where
  next := by rw [next_take, next_take, alike.next]
  found other inOther := by
    cases key with
    | none => simpa using alike.found other inOther
    | some taken =>
        rw [Option.map_some]
        by_cases same : other = taken
        · subst same
          rw [find?_take_self, find?_take_self, alike.next]
        · rw [find?_take_of_ne _ same, find?_take_of_ne, alike.found other inOther]
          rwa [ne_eq, MemoKey.rename_inj injective inOther (within taken rfl)]

/-- A step that names only keys and nodes of a kind. -/
def Step.Within (met : NodeId → Prop) : Step → Prop
  | .remember key => ∀ taken ∈ key, taken.Within met
  | .endTuple id _ => met id
  | .node id => met id
  | _ => True

private theorem Protocol.Planned.within {protocol : Protocol} {met : NodeId → Prop} {id : NodeId}
    {node : Node} {step : Step} (planned : Planned protocol id node step) (own : met id)
    (children : ∀ child ∈ node.children, met child) : step.Within met := by
  rcases planned with (glue | inside) | _ | count
  · cases glue <;> simp [Step.Within]
  · exact children _ inside
  · simpa [Step.Within, MemoKey.Within] using own
  · exact own

namespace Trace

/-- Traces that went on from two others in the same way: they added the same events up to the
positions of nodes, and have memos that are alike. -/
structure Alike (map : NodeId → NodeId) (met : NodeId → Prop) (base other : List Event)
    (first second : Trace) : Prop where
  memo : first.memo.Alike map met second.memo
  added : ∃ events, first.events = base ++ events ∧
    second.events = other ++ events.map (Event.rename map)

variable {map : NodeId → NodeId} {met : NodeId → Prop} {base other : List Event}
  {first second : Trace} {protocol : Protocol}

namespace Alike

private theorem record (alike : Alike map met base other first second) (event : Event) :
    Alike map met base other (first.record event) (second.record (event.rename map)) where
  memo := alike.memo
  added := by
    rcases alike.added with ⟨events, isFirst, isSecond⟩
    refine ⟨events ++ [event], ?_, ?_⟩
    · rw [events_record, isFirst, List.append_assoc]
    · rw [events_record, isSecond, List.append_assoc, List.map_append]
      rfl

private theorem emit (alike : Alike map met base other first second) (opcode : Opcode) :
    Alike map met base other (first.emit opcode) (second.emit opcode) :=
  alike.record (.op opcode)

private theorem emitAll (alike : Alike map met base other first second) (opcodes : List Opcode) :
    Alike map met base other (first.emitAll opcodes) (second.emitAll opcodes) := by
  induction opcodes generalizing first second with
  | nil => exact alike
  | cons opcode rest induction => exact induction (alike.emit opcode)

private theorem fetchOr (alike : Alike map met base other first second) {key : MemoKey}
    (noNode : ∀ id, key ≠ .node id) {write : Trace → Trace}
    (written : Alike map met base other (write first) (write second)) :
    Alike map met base other (first.fetchOr protocol key write)
      (second.fetchOr protocol key write) := by
  have found : second.memo.find? key = first.memo.find? key := by
    cases key with
    | node id => exact absurd rfl (noNode id)
    | callable callable => exact alike.memo.found (.callable callable) trivial
    | text content => exact alike.memo.found (.text content) trivial
  rw [Trace.fetchOr, Trace.fetchOr, found]
  cases first.memo.find? key with
  | some slot => exact alike.emit _
  | none => exact written

variable (injective : Set.InjOn map {id | met id})

include injective

private theorem remember (alike : Alike map met base other first second) {key : Option MemoKey}
    (within : ∀ taken ∈ key, taken.Within met) :
    Alike map met base other (first.remember protocol key)
      (second.remember protocol (key.map (MemoKey.rename map))) where
  memo := alike.memo.take injective within
  added := by
    have emitted := (alike.emit (protocol.putOpcode first.memo.next)).added
    simpa only [events_emit, events_remember, alike.memo.next] using emitted

private theorem freshText (alike : Alike map met base other first second) (content : String) :
    Alike map met base other (first.freshText protocol content)
      (second.freshText protocol content) :=
  (alike.emit _).remember injective (by simp)

private theorem sharedText (alike : Alike map met base other first second) (content : String) :
    Alike map met base other (first.sharedText protocol content)
      (second.sharedText protocol content) := by
  refine alike.fetchOr (by simp) ((alike.emit _).remember injective ?_)
  simp [MemoKey.Within]

private theorem stackedNames (alike : Alike map met base other first second) (callable : Callable) :
    Alike map met base other (first.stackedNames protocol callable)
      (second.stackedNames protocol callable) := by
  have split := alike.record .split
  simp only [Trace.stackedNames]
  split
  · exact (((split.freshText injective _).record .split).freshText injective _).emit _
  · exact (((split.sharedText injective _).record .split).freshText injective _).emit _

private theorem callable (alike : Alike map met base other first second) (callable : Callable) :
    Alike map met base other (first.callable protocol callable)
      (second.callable protocol callable) := by
  refine alike.fetchOr (by simp) ?_
  dsimp only
  split
  · exact (alike.stackedNames injective callable).remember injective (by simp [MemoKey.Within])
  · exact (alike.emit _).remember injective (by simp [MemoKey.Within])

private theorem endTuple (alike : Alike map met base other first second) {id : NodeId}
    (own : met id) (count : Nat) :
    Alike map met base other (first.endTuple protocol id count)
      (second.endTuple protocol (map id) count) := by
  have found : second.memo.find? (.node (map id)) = first.memo.find? (.node id) :=
    alike.memo.found (.node id) own
  rw [Trace.endTuple, Trace.endTuple, found]
  cases first.memo.find? (.node id) with
  | some slot => exact (alike.emitAll _).emit _
  | none => exact (alike.emit _).remember injective (by simpa [MemoKey.Within] using own)

end Alike

/-- Outcomes that are complete with traces that are alike, or failed with errors that are the same
up to the position they name. -/
inductive Outcome.Alike (map : NodeId → NodeId) (met : NodeId → Prop) (base other : List Event) :
    Outcome → Outcome → Prop
  | complete {first second : Trace} : Trace.Alike map met base other first second →
      Outcome.Alike map met base other (.complete first) (.complete second)
  | failed (error : EncodeError) (first second : Trace) :
      Outcome.Alike map met base other (.failed error first) (.failed (error.rename map) second)

section Steps

variable (injective : Set.InjOn map {id | met id}) {write copied : NodeId → Trace → Outcome}
  (writes : ∀ id first second, met id → Alike map met base other first second →
    Outcome.Alike map met base other (write id first) (copied (map id) second))

include injective writes

private theorem Alike.perform (alike : Alike map met base other first second) {step : Step}
    (within : step.Within met) :
    Outcome.Alike map met base other (first.perform protocol write step)
      (second.perform protocol copied (step.rename map)) := by
  cases step with
  | split => exact .complete (alike.record .split)
  | op opcode => exact .complete (alike.emit opcode)
  | remember key => exact .complete (alike.remember injective within)
  | sharedText content => exact .complete (alike.sharedText injective content)
  | callable callable => exact .complete (alike.callable injective callable)
  | endTuple id count => exact .complete (alike.endTuple injective within count)
  | node id => exact writes id first second within alike

theorem Alike.performAll (alike : Alike map met base other first second) {steps : List Step}
    (within : ∀ step ∈ steps, step.Within met) :
    Outcome.Alike map met base other (performAll protocol write steps first)
      (performAll protocol copied (steps.map (Step.rename map)) second) := by
  induction steps generalizing first second with
  | nil => exact .complete alike
  | cons step rest induction =>
      have parts := List.forall_mem_cons.1 within
      have performed : Outcome.Alike map met base other (first.perform protocol write step)
          (second.perform protocol copied (step.rename map)) :=
        alike.perform injective writes parts.1
      rw [List.map_cons, Trace.performAll, Trace.performAll]
      generalize first.perform protocol write step = outcome at performed ⊢
      generalize second.perform protocol copied (step.rename map) = copiedOutcome at performed ⊢
      cases performed with
      | complete later => exact induction later parts.2
      | failed error _ _ => exact .failed error _ _

end Steps

end Trace

/-! ## Graphs of the same shape -/

/-- A map that takes the positions of a kind, with the nodes that they hold, to those of another
graph. -/
structure Graph.Copies (map : NodeId → NodeId) (met : NodeId → Prop) (first second : Graph) :
    Prop where
  closed : ∀ {id child}, met id → first.RefersTo id child → met child
  injective : Set.InjOn map {id | met id}
  nodes : ∀ {id}, met id → second.node? (map id) = (first.node? id).map (Node.rename map)

private theorem Graph.rename_of_plan {graph : Graph} {protocol : Protocol} {id : NodeId}
    {node : Node}
    {error : EncodeError} (map : NodeId → NodeId) (present : graph.node? id = some node)
    (refused : protocol.plan id node = .error error) : error.rename map = error := by
  cases Graph.offends_of_plan present refused with
  | dangling missing => cases missing.symm.trans present
  | integer | decimal | duration => rfl

namespace Trace

/-- The encodings of corresponding nodes go on in the same way. -/
theorem Alike.writeNode {graph copy : Graph} (copies : Graph.Copies map met graph copy)
    {depth : Nat} {id : NodeId} (own : met id) (alike : Alike map met base other first second) :
    Outcome.Alike map met base other (writeNode graph protocol depth id first)
      (writeNode copy protocol depth (map id) second) := by
  induction depth generalizing id first second with
  | zero => exact .failed .endless _ _
  | succ depth induction =>
      have begun := alike.record (.begins id)
      have found : second.memo.find? (.node (map id)) = first.memo.find? (.node id) :=
        alike.memo.found (.node id) own
      simp only [Trace.writeNode, memo_record, found, copies.nodes own]
      cases first.memo.find? (.node id) with
      | some slot => exact .complete (begun.emit _)
      | none =>
          cases present : graph.node? id with
          | none => exact .failed (.danglingNode id) _ _
          | some node =>
              simp only [Option.map_some, Protocol.plan_rename]
              cases plan : protocol.plan id node with
              | error error =>
                  have failed : Outcome.Alike map met base other
                      (.failed error (first.record (.begins id)))
                      (.failed (error.rename map) (second.record (.begins (map id)))) :=
                    .failed error _ _
                  rwa [Graph.rename_of_plan map present plan] at failed
              | ok steps =>
                  refine begun.performAll copies.injective (fun _ _ _ => induction) ?_
                  intro step member
                  refine (Protocol.planned_of_mem_plan plan step member).within own ?_
                  exact fun child inside => copies.closed own ⟨node, present, inside⟩

end Trace

private theorem Pieces.ofEvents_rename (map : NodeId → NodeId) (events : List Event) :
    ofEvents (events.map (Event.rename map)) = ofEvents events := by
  rw [ofEvents, ofEvents, List.foldl_map]
  congr 1
  funext pieces event
  cases event <;> rfl

private theorem Trace.Alike.delivery_eq {map : NodeId → NodeId} {met : NodeId → Prop}
    {first second : Trace} (alike : Trace.Alike map met [] [] first second) (protocol : Protocol) :
    second.delivery protocol = first.delivery protocol := by
  rcases alike.added with ⟨events, isFirst, isSecond⟩
  have same : (second.emit .stop).events = (first.emit .stop).events.map (Event.rename map) := by
    simp [isFirst, isSecond, Event.rename]
  rw [delivery, delivery, pieces, pieces, same, Pieces.ofEvents_rename]

/-! ## Whole values -/

namespace Graph

variable {map : NodeId → NodeId} {graph copy : Graph} {protocol : Protocol} {root image : NodeId}

/-- A map takes the part of a graph that is met from a root to the part of another that is met
from an image: it keeps positions apart, takes the nodes that they hold to the same nodes with the
positions within taken too, and takes positions that hold nothing to such positions. -/
structure SameShape (map : NodeId → NodeId) (graph : Graph) (root : NodeId) (copy : Graph)
    (image : NodeId) : Prop where
  start : map root = image
  injective : Set.InjOn map {id | graph.Reaches root id}
  nodes : ∀ id, graph.Reaches root id →
    copy.node? (map id) = (graph.node? id).map (Node.rename map)

namespace SameShape

private theorem refersTo (same : SameShape map graph root copy image) {id child : NodeId}
    (path : graph.Reaches root id) :
    copy.RefersTo (map id) child ↔ ∃ other, graph.RefersTo id other ∧ map other = child := by
  constructor
  · intro given
    rcases given with ⟨node, present, inside⟩
    rw [same.nodes id path] at present
    rcases Option.map_eq_some_iff.1 present with ⟨original, found, rfl⟩
    rw [Node.children_rename] at inside
    rcases List.mem_map.1 inside with ⟨other, listed, rfl⟩
    exact ⟨other, ⟨original, found, listed⟩, rfl⟩
  · intro given
    rcases given with ⟨other, ⟨node, present, inside⟩, rfl⟩
    refine ⟨node.rename map, ?_, ?_⟩
    · rw [same.nodes id path, present, Option.map_some]
    · rw [Node.children_rename]
      exact List.mem_map_of_mem inside

/-- Such a map pairs off what is met from the root and what is met from the image. -/
private theorem bijOn (same : SameShape map graph root copy image) :
    Set.BijOn map {id | graph.Reaches root id} {id | copy.Reaches image id} := by
  refine ⟨fun id path => ?_, same.injective, fun id path => ?_⟩
  · induction path with
    | refl => exact same.start ▸ .refl
    | tail path refers induction => exact induction.tail ((same.refersTo path).2 ⟨_, refers, rfl⟩)
  · induction path with
    | refl => exact ⟨root, .refl, same.start⟩
    | tail _ refers induction =>
        rcases induction with ⟨id, path, rfl⟩
        rcases (same.refersTo path).1 refers with ⟨other, referred, rfl⟩
        exact ⟨other, path.tail referred, rfl⟩

theorem copies (same : SameShape map graph root copy image) :
    Copies map (graph.Reaches root) graph copy where
  closed path refers := path.tail refers
  injective := same.injective
  nodes path := same.nodes _ path

/-- Written side by side, the values come out alike. -/
private theorem alike (same : SameShape map graph root copy image) (depth : Nat) :
    Trace.Outcome.Alike map (graph.Reaches root) [] []
      (Trace.writeNode graph protocol depth root Trace.start)
      (Trace.writeNode copy protocol depth image Trace.start) := by
  have begun : Trace.Alike map (graph.Reaches root) [] [] Trace.start Trace.start :=
    ⟨⟨rfl, fun key _ => by simp [Trace.start]⟩, [.split], rfl, rfl⟩
  rw [← same.start]
  exact begun.writeNode same.copies .refl

end SameShape

private theorem pickle_eq_of_depth {depth : Nat} (more : graph.depthBound ≤ depth) :
    graph.pickle protocol.version root =
      match Trace.writeNode graph protocol depth root Trace.start with
      | .complete trace => .ok (Stream.bytes (trace.delivery protocol))
      | .failed error _ => .error error := by
  rw [pickle_eq]
  cases ends : (graph.trace protocol root).isEndless with
  | false => rw [Trace.refines_writeNode more root Trace.start ends]; rfl
  | true =>
      have never := (neverEnds_of_trace ends).endless depth
      rcases Trace.Outcome.isEndless_iff.1 ends with ⟨final, failed⟩
      rcases Trace.Outcome.isEndless_iff.1 never with ⟨deeper, failedDeeper⟩
      rw [failed, failedDeeper]

private theorem SameShape.pickle_version_eq (same : SameShape map graph root copy image) :
    copy.pickle protocol.version image =
      (graph.pickle protocol.version root).mapError (EncodeError.rename map) := by
  have enough : graph.depthBound ≤ max graph.depthBound copy.depthBound := le_max_left _ _
  have enoughCopy : copy.depthBound ≤ max graph.depthBound copy.depthBound := le_max_right _ _
  have alike : Trace.Outcome.Alike map (graph.Reaches root) [] []
      (Trace.writeNode graph protocol (max graph.depthBound copy.depthBound) root Trace.start)
      (Trace.writeNode copy protocol (max graph.depthBound copy.depthBound) image Trace.start) :=
    same.alike _
  rw [pickle_eq_of_depth enough, pickle_eq_of_depth enoughCopy]
  generalize Trace.writeNode graph _ _ root _ = outcome at alike ⊢
  generalize Trace.writeNode copy _ _ image _ = copied at alike ⊢
  cases alike with
  | failed error _ _ => rfl
  | complete alike =>
      dsimp only
      rw [alike.delivery_eq]
      rfl

private theorem SameShape.pickle_eq (same : SameShape map graph root copy image) (version : Nat) :
    copy.pickle version image = (graph.pickle version root).mapError (EncodeError.rename map) := by
  by_cases supported : version ≤ 5
  · have known : copy.pickle (Protocol.mk version supported).version image =
        (graph.pickle version root).mapError (EncodeError.rename map) := same.pickle_version_eq
    exact known
  · have unknown : Protocol.of? version = none := dif_neg supported
    rw [pickle, pickle, unknown]
    rfl

/-- Nodes that are not met from the root do not matter. -/
private theorem pickle_eq_of_node?_eq
    (same : ∀ id, graph.Reaches root id → copy.node? id = graph.node? id) (version : Nat) :
    copy.pickle version root = graph.pickle version root := by
  have shape : SameShape (fun id => id) graph root copy root := by
    refine ⟨rfl, fun _ _ _ _ equal => equal, fun id path => ?_⟩
    rw [same id path]
    cases graph.node? id <;> simp
  rw [shape.pickle_eq]
  cases graph.pickle version root <;> simp [Except.mapError]

private theorem pickle_append {version : Nat} {bytes : Bytes}
    (encoded : graph.pickle version root = .ok bytes) (later : Array Node) :
    pickle ⟨graph.nodes ++ later⟩ version root = .ok bytes := by
  rw [← encoded]
  by_cases supported : version ≤ 5
  · have known : graph.pickle (Protocol.mk version supported).version root = .ok bytes := encoded
    have encodable := encodable_of_pickle known
    exact pickle_eq_of_node?_eq
      (fun id path => Array.getElem?_append_left (encodable.allocated id path)) version
  · rw [pickle, Protocol.of?, dif_neg supported] at encoded
    cases encoded

/-- The stream of a value depends on the shape alone that is met from its root: where what is met
from another root is paired off with it, the stream is the same, or the error is up to the position
that it names. So nodes that are not met from the root do not matter, and a stream stays the same
when nodes are allocated behind those there are. -/
theorem pickle_of_shape (graph : Graph) (root : NodeId) (version : Nat) :
    (∀ map copy image, SameShape map graph root copy image →
        Set.BijOn map {id | graph.Reaches root id} {id | copy.Reaches image id} ∧
          copy.pickle version image =
            (graph.pickle version root).mapError (EncodeError.rename map)) ∧
      (∀ other : Graph, (∀ id, graph.Reaches root id → other.node? id = graph.node? id) →
        other.pickle version root = graph.pickle version root) ∧
      ∀ later bytes, graph.pickle version root = .ok bytes →
        pickle ⟨graph.nodes ++ later⟩ version root = .ok bytes :=
  ⟨fun _ _ _ same => ⟨same.bijOn, same.pickle_eq version⟩,
    fun _ same => pickle_eq_of_node?_eq same version,
    fun later _ encoded => pickle_append encoded later⟩

/-- A list that holds a tuple around itself, allocated the other way around behind a literal that
stands for no integer, and with such a literal allocated behind it. -/
theorem pickle_of_shape_selfListed :
    SameShape (fun id => 2 - id) ⟨#[.list [1, 1], .tuple [0]]⟩ 0
        ⟨#[.bigInt "12x", .tuple [2], .list [1, 1]]⟩ 2 ∧
      pickle ⟨#[.bigInt "12x", .tuple [2], .list [1, 1]]⟩ 2 2 =
        (pickle ⟨#[.list [1, 1], .tuple [0]]⟩ 2 0).mapError
          (EncodeError.rename fun id => 2 - id) ∧
      pickle ⟨#[.list [1, 1], .tuple [0]] ++ #[.bigInt "12x"]⟩ 2 0 =
        .ok [0x80, 0x02, 0x5d, 0x71, 0x00, 0x28, 0x68, 0x00, 0x85, 0x71, 0x01, 0x68, 0x01, 0x65,
          0x2e] := by
  have same : SameShape (fun id => 2 - id) ⟨#[.list [1, 1], .tuple [0]]⟩ 0
      ⟨#[.bigInt "12x", .tuple [2], .list [1, 1]]⟩ 2 := by
    have met {id : NodeId} (path : Reaches ⟨#[.list [1, 1], .tuple [0]]⟩ 0 id) :
        id = 0 ∨ id = 1 := by
      induction path with
      | refl => exact Or.inl rfl
      | tail _ refers known =>
          rcases refers with ⟨node, present, inside⟩
          rcases known with rfl | rfl
          · cases present
            simpa [Node.children] using Or.inr inside
          · cases present
            simpa [Node.children] using Or.inl inside
    refine ⟨rfl, fun first inFirst second inSecond equal => ?_, fun id path => ?_⟩
    · rcases met inFirst with rfl | rfl <;> rcases met inSecond with rfl | rfl <;> simp_all
    · rcases met path with rfl | rfl <;> rfl
  have encoded : pickle ⟨#[.list [1, 1], .tuple [0]]⟩ 2 0 =
      .ok [0x80, 0x02, 0x5d, 0x71, 0x00, 0x28, 0x68, 0x00, 0x85, 0x71, 0x01, 0x68, 0x01, 0x65,
        0x2e] := by decide +kernel
  rcases pickle_of_shape ⟨#[.list [1, 1], .tuple [0]]⟩ 0 2 with ⟨copied, -, appended⟩
  exact ⟨same, (copied _ _ _ same).2, appended _ _ encoded⟩

end Graph

end PickleTrial
