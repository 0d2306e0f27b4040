import PickleTrial.Proofs.Graph.Distinct

/-! Graphs as they are constructed, one operation after the other. An operation allocates a node or
edits one list, and leaves every other node as it is. So a dict that was made without repeated keys
keeps its entries, and keeps its keys apart, in every graph that comes later. -/

namespace PickleTrial.Graph

/-- One operation on a graph. A set and a dict are made from the items and the entries given, and
every other node is allocated as it is. -/
inductive Operation
  | add (node : Node)
  | addSet (items : List NodeId)
  | addDict (entries : List (NodeId × NodeId))
  | append (list item : NodeId)
  | replace (list index item : NodeId)

namespace Operation

/-- The graph after an operation. One that does not succeed leaves the graph as it is. -/
def apply (graph : Graph) : Operation → Graph
  | add node => (graph.add node).2
  | addSet items => (graph.addSet items).2
  | addDict entries => (graph.addDict entries).2
  | append list item => (graph.append? list item).getD graph
  | replace list index item => (graph.replace? list index item).getD graph

def succeeds (graph : Graph) : Operation → Bool
  | append list item => (graph.append? list item).isSome
  | replace list index item => (graph.replace? list index item).isSome
  | _ => true

/-- Sets and dicts are not allocated as they are, and the keys of a dict are allocated before. -/
def Allowed (graph : Graph) : Operation → Prop
  | add (.set _) | add (.dict _) => False
  | addDict entries => ∀ entry ∈ entries, entry.1 < graph.size
  | _ => True

instance (graph : Graph) (operation : Operation) : Decidable (operation.Allowed graph) := by
  unfold Allowed
  split <;> infer_instance

/-- The node that an operation allocates, if it allocates one. -/
def made? (graph : Graph) : Operation → Option Node
  | add node => some node
  | addSet items => some (.set (graph.unseen [] items))
  | addDict entries => some (.dict (graph.assignAll entries))
  | append _ _ | replace _ _ _ => none

end Operation

/-- An operation edits the list at a position. -/
inductive Edits (graph : Graph) : Operation → NodeId → (before after : List NodeId) → Prop
  | append {list item : NodeId} {items : List NodeId}
      (there : graph.node? list = some (.list items)) :
      Edits graph (.append list item) list items (items ++ [item])
  | replace {list index item : NodeId} {items : List NodeId}
      (there : graph.node? list = some (.list items)) (inside : index < items.length) :
      Edits graph (.replace list index item) list items (items.set index item)

/-! ## What one operation does -/

def withList (graph : Graph) (list : NodeId) (items : List NodeId) : Graph :=
  ⟨graph.nodes.setIfInBounds list (.list items)⟩

variable {graph after : Graph} {operation : Operation} {id : NodeId}

/-- All that can come of an operation. -/
inductive Effect (graph : Graph) (operation : Operation) : Graph → Prop
  | adds {node : Node} (made : operation.made? graph = some node)
      (succeeds : operation.succeeds graph = true) : Effect graph operation (graph.add node).2
  | edits {list : NodeId} {before after : List NodeId}
      (edits : graph.Edits operation list before after)
      (succeeds : operation.succeeds graph = true) :
      Effect graph operation (graph.withList list after)
  | fails (none : ∀ list before after, ¬graph.Edits operation list before after)
      (succeeds : operation.succeeds graph = false) : Effect graph operation graph

private theorem append?_of_list {list : NodeId} {items : List NodeId}
    (there : graph.node? list = some (.list items)) (item : NodeId) :
    graph.append? list item = some (graph.withList list (items ++ [item])) := by
  rw [append?, there]
  rfl

private theorem append?_eq_none {list : NodeId}
    (other : ∀ items, graph.node? list ≠ some (.list items))
    (item : NodeId) : graph.append? list item = none := by
  rw [append?]
  split
  · rename_i items found
    exact absurd found (other items)
  · rfl

private theorem replace?_of_list {list index : NodeId} {items : List NodeId}
    (there : graph.node? list = some (.list items)) (inside : index < items.length)
    (item : NodeId) :
    graph.replace? list index item = some (graph.withList list (items.set index item)) := by
  simp only [replace?, there, if_pos inside]
  rfl

private theorem replace?_eq_none {list index : NodeId}
    (other : ∀ items, graph.node? list = some (.list items) → ¬index < items.length)
    (item : NodeId) : graph.replace? list index item = none := by
  rw [replace?]
  split
  · rename_i items found
    exact if_neg (other items found)
  · rfl

private theorem effect_apply (graph : Graph) (operation : Operation) :
    Effect graph operation (operation.apply graph) := by
  cases operation with
  | add node => exact .adds rfl rfl
  | addSet items => exact .adds rfl rfl
  | addDict entries => exact .adds rfl rfl
  | append list item =>
      by_cases there : ∃ items, graph.node? list = some (.list items)
      · rcases there with ⟨items, there⟩
        have appended := append?_of_list there item
        rw [Operation.apply, appended]
        exact .edits (.append there) (by rw [Operation.succeeds, appended]; rfl)
      · have failed := append?_eq_none (fun items found => there ⟨items, found⟩) item
        rw [Operation.apply, failed]
        refine .fails ?_ (by rw [Operation.succeeds, failed]; rfl)
        rintro _ _ _ (found | _)
        exact there ⟨_, found⟩
  | replace list index item =>
      by_cases there : ∃ items, graph.node? list = some (.list items) ∧ index < items.length
      · rcases there with ⟨items, there, inside⟩
        have replaced := replace?_of_list there inside item
        rw [Operation.apply, replaced]
        exact .edits (.replace there inside) (by rw [Operation.succeeds, replaced]; rfl)
      · have failed := replace?_eq_none (fun items found inside => there ⟨items, found, inside⟩) item
        rw [Operation.apply, failed]
        refine .fails ?_ (by rw [Operation.succeeds, failed]; rfl)
        rintro _ _ _ (_ | ⟨found, inside⟩)
        exact there ⟨_, found, inside⟩

theorem Edits.there {before items : List NodeId} (edits : graph.Edits operation id before items) :
    graph.node? id = some (.list before) := by
  cases edits with
  | append there => exact there
  | replace there => exact there

private theorem Edits.made? {before items : List NodeId}
    (edits : graph.Edits operation id before items) : operation.made? graph = none := by
  cases edits <;> rfl

/-- An operation edits one list at most. -/
private theorem Edits.unique {other : NodeId} {before items otherBefore otherItems : List NodeId}
    (first : graph.Edits operation id before items)
    (second : graph.Edits operation other otherBefore otherItems) :
    other = id ∧ otherItems = items := by
  cases first with
  | append there =>
      cases second with
      | append found =>
          cases there.symm.trans found
          exact ⟨rfl, rfl⟩
  | replace there _ =>
      cases second with
      | replace found _ =>
          cases there.symm.trans found
          exact ⟨rfl, rfl⟩

private theorem lt_size_iff : id < graph.size ↔ ∃ node, graph.node? id = some node := by
  rw [node?, size]
  constructor
  · intro inside
    exact ⟨graph.nodes[id], Array.getElem?_eq_getElem inside⟩
  · intro found
    rcases found with ⟨node, there⟩
    exact (Array.getElem?_eq_some_iff.1 there).1

private theorem node?_withList {items : List NodeId} {list : NodeId} (inside : list < graph.size) :
    (graph.withList list items).node? id =
      if id = list then some (.list items) else graph.node? id := by
  simp only [withList, node?, Array.getElem?_setIfInBounds]
  rw [size] at inside
  by_cases same : list = id
  · subst same
    simp [inside]
  · simp [same, Ne.symm same]

@[simp] theorem size_withList (graph : Graph) (list : NodeId) (items : List NodeId) :
    (graph.withList list items).size = graph.size := by
  simp [withList, size]

namespace Effect

private theorem size_le (effect : Effect graph operation after) : graph.size ≤ after.size := by
  cases effect with
  | adds => simp
  | edits => simp
  | fails => exact Nat.le_refl _

/-- What is no list that is edited stays as it is. -/
private theorem node?_of_not_edits (effect : Effect graph operation after)
    (inside : id < graph.size) (unedited : ∀ before items, ¬graph.Edits operation id before items) :
    after.node? id = graph.node? id := by
  cases effect with
  | adds => rw [node?_add, if_neg (Nat.ne_of_lt inside)]
  | edits edits =>
      rw [node?_withList (lt_size_iff.2 ⟨_, edits.there⟩), if_neg]
      rintro rfl
      exact unedited _ _ edits
  | fails => rfl

private theorem node?_of_edits (effect : Effect graph operation after) {before items : List NodeId}
    (edits : graph.Edits operation id before items) :
    operation.succeeds graph = true ∧ after.node? id = some (.list items) := by
  cases effect with
  | adds made =>
      rw [edits.made?] at made
      cases made
  | edits others succeeds =>
      rcases edits.unique others with ⟨rfl, rfl⟩
      exact ⟨succeeds, by rw [node?_withList (lt_size_iff.2 ⟨_, edits.there⟩), if_pos rfl]⟩
  | fails none => exact absurd edits (none _ _ _)

/-- A node that is no list stays. -/
private theorem node?_of_ne (effect : Effect graph operation after) {node : Node}
    (there : graph.node? id = some node) (different : ∀ items, node ≠ .list items) :
    after.node? id = some node := by
  rw [effect.node?_of_not_edits (lt_size_iff.2 ⟨node, there⟩), there]
  intro before items edits
  exact different before (Option.some.inj (there.symm.trans edits.there))

theorem key? (effect : Effect graph operation after) (inside : id < graph.size) :
    after.key? id = graph.key? id := by
  rw [Graph.key?, Graph.key?]
  by_cases edited : ∃ before items, graph.Edits operation id before items
  · rcases edited with ⟨before, items, edits⟩
    rw [(effect.node?_of_edits edits).2, edits.there]
    rfl
  · rw [effect.node?_of_not_edits inside fun before items edits => edited ⟨before, items, edits⟩]

private theorem same_iff (effect : Effect graph operation after) {left right : NodeId}
    (leftInside : left < graph.size) (rightInside : right < graph.size) :
    after.Same left right ↔ graph.Same left right := by
  rw [Same, SameScalar, effect.key? leftInside, effect.key? rightInside]
  rfl

/-- A dict was there, or is the one that is made. -/
private theorem made_of_dict (effect : Effect graph operation after) {kept : List (NodeId × NodeId)}
    (there : after.node? id = some (.dict kept)) :
    graph.node? id = some (.dict kept) ∨
      id = graph.size ∧ operation.made? graph = some (.dict kept) := by
  cases effect with
  | adds made =>
      rw [node?_add] at there
      split at there
      · rename_i last
        cases there
        exact Or.inr ⟨last, made⟩
      · exact Or.inl there
  | edits edits =>
      rw [node?_withList (lt_size_iff.2 ⟨_, edits.there⟩)] at there
      split at there
      · cases there
      · exact Or.inl there
  | fails => exact Or.inl there

end Effect

/-- What an operation leaves as it is. -/
structure Frame (graph : Graph) (operation : Operation) : Prop where
  /-- Every node that is there stays as it is, unless it is a list that the operation edits. -/
  stays : ∀ id < graph.size, (∀ before after, ¬graph.Edits operation id before after) →
    (operation.apply graph).node? id = graph.node? id
  /-- If it edits one, it succeeds. -/
  edits : ∀ id before after, graph.Edits operation id before after →
    operation.succeeds graph = true ∧ (operation.apply graph).node? id = some (.list after)
  /-- It edits one list at most. -/
  once : ∀ id before after other otherBefore otherAfter, graph.Edits operation id before after →
    graph.Edits operation other otherBefore otherAfter → other = id
  fails : operation.succeeds graph = false → operation.apply graph = graph

theorem frame (graph : Graph) (operation : Operation) : graph.Frame operation := by
  have effect := effect_apply graph operation
  refine ⟨fun id => effect.node?_of_not_edits, fun id before after => effect.node?_of_edits,
    fun _ _ _ _ _ _ first second => (first.unique second).1, fun failed => ?_⟩
  generalize operation.apply graph = after at effect
  cases effect with
  | adds _ succeeds => cases failed.symm.trans succeeds
  | edits _ succeeds => cases failed.symm.trans succeeds
  | fails => rfl

/-! ## Dicts after one operation -/

/-- Every dict has different keys, all of them allocated. -/
def Keyed (graph : Graph) : Prop :=
  ∀ id kept, graph.node? id = some (.dict kept) →
    (∀ entry ∈ kept, entry.1 < graph.size) ∧
      kept.Pairwise fun earlier later => ¬graph.Same earlier.1 later.1

private theorem Operation.Allowed.eq_addDict (allowed : operation.Allowed graph)
    {kept : List (NodeId × NodeId)} (made : operation.made? graph = some (.dict kept)) :
    ∃ given, operation = .addDict given ∧ kept = graph.assignAll given ∧
      ∀ entry ∈ given, entry.1 < graph.size := by
  cases operation with
  | add node =>
      cases made
      cases allowed
  | addSet => cases made
  | addDict given =>
      cases made
      exact ⟨given, rfl, rfl, allowed⟩
  | append => cases made
  | replace => cases made

private theorem Resolves.fst_mem {given kept : List (NodeId × NodeId)}
    (resolves : graph.Resolves given kept) {entry : NodeId × NodeId} (member : entry ∈ kept) :
    ∃ other ∈ given, other.1 = entry.1 := by
  have key := List.mem_map_of_mem (f := Prod.fst) member
  rw [resolves.keys] at key
  exact List.mem_map.1 (mem_of_mem_firsts key)

private theorem Keyed.effect (keyed : graph.Keyed) (allowed : operation.Allowed graph)
    (effect : Effect graph operation after) : after.Keyed := by
  intro id kept there
  have kept_or_made : (∀ entry ∈ kept, entry.1 < graph.size) ∧
      kept.Pairwise fun earlier later => ¬graph.Same earlier.1 later.1 := by
    rcases effect.made_of_dict there with earlier | ⟨-, made⟩
    · exact keyed id kept earlier
    · rcases allowed.eq_addDict made with ⟨given, -, rfl, inside⟩
      refine ⟨fun entry member => ?_, pairwise_assignAll graph given⟩
      rcases (resolves_assignAll graph given).fst_mem member with ⟨other, among, equal⟩
      exact equal ▸ inside other among
  rcases kept_or_made with ⟨inside, distinct⟩
  refine ⟨fun entry member => Nat.lt_of_lt_of_le (inside entry member) effect.size_le, ?_⟩
  refine distinct.imp_of_mem fun {earlier later} first second different same => different ?_
  exact (effect.same_iff (inside earlier first) (inside later second)).1 same

/-! ## Runs of operations -/

/-- The graph that operations make from nothing. -/
def built (operations : List Operation) : Graph :=
  operations.foldl (fun graph operation => operation.apply graph) {}

private theorem built_concat (operations : List Operation) (operation : Operation) :
    built (operations ++ [operation]) = operation.apply (built operations) := by
  rw [built, List.foldl_append]
  rfl

/-- Operations each of which is allowed where it is done. -/
def AllAllowed : (graph : Graph) → List Operation → Prop
  | _, [] => True
  | graph, operation :: rest =>
      operation.Allowed graph ∧ AllAllowed (operation.apply graph) rest

instance decidableAllAllowed : (graph : Graph) → (operations : List Operation) →
    Decidable (AllAllowed graph operations)
  | _, [] => isTrue trivial
  | graph, operation :: rest =>
      have := decidableAllAllowed (operation.apply graph) rest
      inferInstanceAs (Decidable (_ ∧ _))

private theorem allAllowed_append {first second : List Operation} :
    AllAllowed graph (first ++ second) ↔ AllAllowed graph first ∧
      AllAllowed (first.foldl (fun graph operation => operation.apply graph) graph) second := by
  induction first generalizing graph with
  | nil => simp [AllAllowed]
  | cons operation rest induction =>
      rw [List.cons_append, AllAllowed, AllAllowed, induction, and_assoc]
      rfl

private theorem keyed_built {operations : List Operation} (allowed : AllAllowed {} operations) :
    (built operations).Keyed := by
  induction operations using List.reverseRecOn with
  | nil => exact fun id kept there => nomatch there
  | append_singleton operations operation induction =>
      rw [allAllowed_append] at allowed
      rw [built_concat]
      exact (induction allowed.1).effect allowed.2.1 (effect_apply _ operation)

/-- A node that is no list stays whatever is done. -/
private theorem node?_built_append {node : Node} {before : List Operation} (more : List Operation)
    (there : (built before).node? id = some node) (different : ∀ items, node ≠ .list items) :
    (built (before ++ more)).node? id = some node := by
  induction more using List.reverseRecOn with
  | nil =>
      rw [List.append_nil]
      exact there
  | append_singleton more operation induction =>
      rw [← List.append_assoc, built_concat]
      exact (effect_apply _ operation).node?_of_ne induction different

/-- Dicts along a construction. -/
structure KeepsDicts (operations : List Operation) : Prop where
  /-- A dict made of entries has what they come to, and keeps it. -/
  made : ∀ before given more, operations = before ++ .addDict given :: more →
    ∃ kept, (built before).Resolves given kept ∧
      ∀ between, between <+: more →
        (built (before ++ .addDict given :: between)).node? (built before).size =
          some (.dict kept)
  /-- There are no other dicts. -/
  origin : ∀ id kept, (built operations).node? id = some (.dict kept) →
    ∃ before given more, operations = before ++ .addDict given :: more ∧ id = (built before).size
  /-- The keys of a dict are different, at all times. -/
  distinct : ∀ before, before <+: operations →
    ∀ id kept, (built before).node? id = some (.dict kept) →
      kept.Pairwise fun earlier later => earlier.1 ≠ later.1 ∧
        ∀ key, (built before).key? earlier.1 = some key → (built before).key? later.1 ≠ some key
  /-- Nothing else is changed by the way. -/
  frame : ∀ before operation more, operations = before ++ operation :: more →
    (built before).Frame operation

private theorem exists_addDict_of_built {operations : List Operation}
    (allowed : AllAllowed {} operations) {kept : List (NodeId × NodeId)}
    (there : (built operations).node? id = some (.dict kept)) :
    ∃ before given more, operations = before ++ .addDict given :: more ∧
      id = (built before).size := by
  induction operations using List.reverseRecOn with
  | nil => cases there
  | append_singleton operations operation induction =>
      rw [allAllowed_append] at allowed
      rw [built_concat] at there
      rcases (effect_apply _ operation).made_of_dict there with earlier | ⟨last, made⟩
      · rcases induction allowed.1 earlier with ⟨before, given, more, rfl, place⟩
        exact ⟨before, given, more ++ [operation], by simp, place⟩
      · rcases allowed.2.1.eq_addDict made with ⟨given, rfl, -⟩
        exact ⟨operations, given, [], rfl, last⟩

theorem keepsDicts_of_allAllowed {operations : List Operation}
    (allowed : AllAllowed {} operations) :
    KeepsDicts operations where
  made := by
    rintro before given more rfl
    refine ⟨(built before).assignAll given, resolves_assignAll _ _, fun between _ => ?_⟩
    have there : (built (before ++ [.addDict given])).node? (built before).size =
        some (.dict ((built before).assignAll given)) := by
      rw [built_concat, Operation.apply, addDict, node?_add, if_pos rfl]
    rw [List.append_cons]
    apply node?_built_append between there
    intro items same
    cases same
  origin := fun id kept => exists_addDict_of_built allowed
  distinct := by
    rintro before ⟨more, rfl⟩ id kept there
    have keyed := keyed_built (allAllowed_append.1 allowed).1 id kept there
    refine keyed.2.imp fun {earlier later} different => ⟨fun same => different (Or.inl same), ?_⟩
    exact fun key first second => different (Or.inr ⟨key, first, second⟩)
  frame := fun before operation _ _ => frame (built before) operation

/-- One as an integer and as a float is one key, in its first place and with its last value, while a
list comes to hold the dict and the dict is no list to put anything in. -/
theorem keepsDicts_oneTwice :
    let operations : List Operation := [.add (.int 1), .add (.text "a"),
      .add (.float ⟨0x3ff0000000000000⟩), .addDict [(0, 1), (1, 1), (2, 0)], .add (.list [0]),
      .append 4 3, .replace 4 0 1, .append 3 4]
    AllAllowed {} operations ∧ KeepsDicts operations ∧
      (built operations).nodes.toList.drop 3 = [.dict [(0, 0), (1, 1)], .list [1, 3]] := by
  intro operations
  have allowed : AllAllowed {} operations := by decide +kernel
  exact ⟨allowed, keepsDicts_of_allAllowed allowed, by decide +kernel⟩

end PickleTrial.Graph
