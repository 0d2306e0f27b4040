import Mathlib.Data.Finset.Card
import Mathlib.Data.Finset.Range
import PickleTrial.Graph.Render
import PickleTrial.Proofs.Encoding.Storing

/-! Values within themselves as text. The set of containers that rendering keeps holds, wherever a
node is met, just the containers on the path to it, so a container is left out exactly where it is
on the path to itself. Each container on a path is a node that the path did not hold before, so
every path ends; and where nothing lies within itself, the text is that of plain recursion. -/

namespace PickleTrial

/-! ## Texts of containers -/

private theorem entryTexts_map_flatMap (render : NodeId → String)
    (entries : List (NodeId × NodeId)) :
    entryTexts ((entries.flatMap fun entry => [entry.1, entry.2]).map render) =
      entries.map fun entry => render entry.1 ++ ": " ++ render entry.2 := by
  induction entries with
  | nil => rfl
  | cons entry rest induction =>
      rw [List.map_cons, ← induction]
      rfl

namespace Node

private theorem enclose_tuple (items : List NodeId) (render : NodeId → String) :
    enclose (.tuple items) (items.map render) =
      "(" ++ commaSeparated (items.map render) ++ (if items.length = 1 then ",)" else ")") := by
  rcases items with _ | ⟨first, _ | ⟨second, rest⟩⟩
  · rfl
  · rw [List.map_cons, List.map_nil, enclose, List.length_singleton, if_pos rfl]
    rfl
  · rfl

private theorem enclose_set {items : List NodeId} (nonempty : items ≠ [])
    (render : NodeId → String) :
    enclose (.set items) (items.map render) = braced (items.map render) := by
  cases items with
  | nil => exact absurd rfl nonempty
  | cons first rest => rfl

private theorem enclose_dict (entries : List (NodeId × NodeId)) (render : NodeId → String) :
    enclose (.dict entries) ((children (.dict entries)).map render) =
      braced (entries.map fun entry => render entry.1 ++ ": " ++ render entry.2) := by
  rw [← entryTexts_map_flatMap]
  rfl

/-- Only a container that is not shown as it is anywhere holds nodes. -/
private theorem children_eq_nil {node : Node} (shown : node.ellipsis? = Option.none) :
    node.children = [] := by
  cases node with
  | tuple | list | dict => cases shown
  | set items =>
      rw [ellipsis?] at shown
      split at shown
      · assumption
      · cases shown
  | _ => rfl

end Node

namespace Graph

variable {graph : Graph}

/-! ## Along a path -/

/-- The positions of the nodes beside a path. -/
def beside (graph : Graph) (path : List NodeId) : Finset NodeId :=
  (Finset.range graph.size).filter (· ∉ path)

private theorem card_beside_le (path : List NodeId) : (graph.beside path).card ≤ graph.size := by
  apply (Finset.card_filter_le _ _).trans
  rw [Finset.card_range]

/-- There are fewer nodes beside a path that goes on through another node. -/
private theorem card_beside_lt {path : List NodeId} {id : NodeId} {node : Node}
    (present : graph.node? id = some node) (outside : id ∉ path) :
    (graph.beside (id :: path)).card < (graph.beside path).card := by
  apply Finset.card_lt_card
  rw [Finset.ssubset_iff_of_subset]
  · have within : id < graph.size := (Array.getElem?_eq_some_iff.1 present).1
    refine ⟨id, ?_, ?_⟩
    · exact Finset.mem_filter.2 ⟨Finset.mem_range.2 within, outside⟩
    · intro member
      exact (Finset.mem_filter.1 member).2 List.mem_cons_self
  · intro other member
    have parts := Finset.mem_filter.1 member
    exact Finset.mem_filter.2 ⟨parts.1, fun inPath => parts.2 (List.mem_cons_of_mem _ inPath)⟩

/-- The text of the value at a position at the end of a path of containers. What is on the path is
left out, and everything else is written in full. -/
def renderAlong (graph : Graph) (path : List NodeId) (id : NodeId) : String :=
  match _ : graph.node? id with
  | none => "<dangling #" ++ Numeral.natural id ++ ">"
  | some (.tuple items) =>
      if _ : id ∈ path then "(...)"
      else
        "(" ++ commaSeparated (items.map fun item => graph.renderAlong (id :: path) item) ++
          (if items.length = 1 then ",)" else ")")
  | some (.list items) =>
      if _ : id ∈ path then "[...]"
      else bracketed (items.map fun item => graph.renderAlong (id :: path) item)
  | some (.set items) =>
      if items = [] then "set()"
      else if _ : id ∈ path then "\x7b...\x7d"
      else braced (items.map fun item => graph.renderAlong (id :: path) item)
  | some (.dict entries) =>
      if _ : id ∈ path then "\x7b...\x7d"
      else
        braced (entries.map fun entry =>
          graph.renderAlong (id :: path) entry.1 ++ ": " ++
            graph.renderAlong (id :: path) entry.2)
  | some leaf => leaf.renderLeaf
termination_by (graph.beside path).card
decreasing_by all_goals exact card_beside_lt ‹_› ‹_›

section Along

variable {path : List NodeId} {id : NodeId} {node : Node}

private theorem renderAlong_of_missing (missing : graph.node? id = none) :
    graph.renderAlong path id = "<dangling #" ++ Numeral.natural id ++ ">" := by
  rw [renderAlong]
  split
  · rfl
  all_goals
    rename_i present
    cases missing.symm.trans present

theorem renderAlong_of_leaf (present : graph.node? id = some node)
    (leaf : node.ellipsis? = none) : graph.renderAlong path id = node.enclose [] := by
  rw [renderAlong]
  split <;> rename_i found <;> cases present.symm.trans found
  · cases leaf
  · cases leaf
  · rename_i items
    have empty := Node.children_eq_nil leaf
    simp only [Node.children] at empty
    rw [if_pos empty, empty]
    rfl
  · cases leaf
  · rename_i noTuple noList noSet noDict
    cases node with
    | tuple items => exact absurd rfl (noTuple items)
    | list items => exact absurd rfl (noList items)
    | set items => exact absurd rfl (noSet items)
    | dict entries => exact absurd rfl (noDict entries)
    | _ => rfl

private theorem renderAlong_of_container {ellipsis : String} (present : graph.node? id = some node)
    (container : node.ellipsis? = some ellipsis) :
    graph.renderAlong path id =
      if id ∈ path then ellipsis
      else node.enclose (node.children.map (graph.renderAlong (id :: path))) := by
  rw [renderAlong]
  split <;> rename_i found <;> cases present.symm.trans found
  · cases container
    rw [Node.children, Node.enclose_tuple]
    rfl
  · cases container
    rfl
  · rename_i items
    have nonempty : items ≠ [] := by
      rintro rfl
      cases container
    rw [Node.ellipsis?, if_neg nonempty] at container
    cases container
    rw [if_neg nonempty, Node.children, Node.enclose_set nonempty]
    rfl
  · cases container
    rw [Node.enclose_dict]
    rfl
  · rename_i noTuple noList noSet noDict
    cases node with
    | tuple items => exact absurd rfl (noTuple items)
    | list items => exact absurd rfl (noList items)
    | set items => exact absurd rfl (noSet items)
    | dict entries => exact absurd rfl (noDict entries)
    | _ => cases container

end Along

/-! ## The set of containers further out -/

section Active

variable {active : Std.ExtTreeSet NodeId} {path : List NodeId} {id : NodeId}

/-- A set of the containers on a path. -/
def Holds (active : Std.ExtTreeSet NodeId) (path : List NodeId) : Prop :=
  ∀ other, other ∈ active ↔ other ∈ path

theorem Holds.insert (holds : Holds active path) (id : NodeId) :
    Holds (active.insert id) (id :: path) := by
  intro other
  rw [Std.ExtTreeSet.mem_insert, List.mem_cons, holds other, Nat.compare_eq_eq, eq_comm]

private theorem erase_insert (outside : id ∉ active) : (active.insert id).erase id = active := by
  apply Std.ExtTreeSet.ext_mem
  intro other
  rw [Std.ExtTreeSet.mem_erase, Std.ExtTreeSet.mem_insert, ne_eq, Nat.compare_eq_eq]
  constructor
  · rintro ⟨different, same | member⟩
    · exact absurd same different
    · exact member
  · intro member
    refine ⟨?_, .inr member⟩
    rintro rfl
    exact outside member

/-! ## One node -/

variable {node : Node} {depth : Nat}

private theorem run_renderNode_of_missing (missing : graph.node? id = none) :
    (graph.renderNode (depth + 1) id).run active =
      some ("<dangling #" ++ Numeral.natural id ++ ">", active) := by
  rw [renderNode, missing]
  rfl

theorem run_renderNode_of_leaf (present : graph.node? id = some node)
    (leaf : node.ellipsis? = none) :
    (graph.renderNode (depth + 1) id).run active = some (node.enclose [], active) := by
  rw [renderNode, present]
  simp only [leaf]
  rfl

private theorem run_renderNode_of_container {ellipsis : String}
    (present : graph.node? id = some node) (container : node.ellipsis? = some ellipsis) :
    (graph.renderNode (depth + 1) id).run active =
      if id ∈ active then some (ellipsis, active)
      else
        ((node.children.mapM (graph.renderNode depth)).run (active.insert id)).map fun found =>
          (node.enclose found.1, found.2.erase id) := by
  rw [renderNode, present]
  simp only [container]
  by_cases within : id ∈ active
  · rw [if_pos within]
    simp [StateT.run_bind, within]
  · rw [if_neg within, Option.map_eq_bind]
    simp [StateT.run_bind, within]

/-! ## Several nodes -/

variable {items : List NodeId} {render : NodeId → Rendering String} {text : NodeId → String}

/-- Where each item gives its text and leaves the set as it was, or no text at all, so do several
items. -/
private theorem run_mapM {shallow : Prop}
    (rendered : ∀ item ∈ items, (render item).run active = some (text item, active) ∨
      (render item).run active = none ∧ shallow) :
    (items.mapM render).run active = some (items.map text, active) ∨
      (items.mapM render).run active = none ∧ shallow := by
  induction items with
  | nil => exact .inl rfl
  | cons item rest induction =>
      have parts := List.forall_mem_cons.1 rendered
      rw [List.mapM_cons, StateT.run_bind]
      rcases parts.1 with first | ⟨first, short⟩
      · rw [first, Option.bind_eq_bind, Option.bind_some, StateT.run_bind]
        rcases induction parts.2 with others | ⟨others, short⟩
        · rw [others]
          exact .inl rfl
        · rw [others]
          exact .inr ⟨rfl, short⟩
      · rw [first]
        exact .inr ⟨rfl, short⟩

/-! ## Whole values -/

/-- Rendering gives the text along the path and leaves the set as it was. It gives no text only
where there is no more depth than there are nodes beside the path. -/
private theorem run_renderNode (holds : Holds active path) :
    (graph.renderNode depth id).run active = some (graph.renderAlong path id, active) ∨
      (graph.renderNode depth id).run active = none ∧ depth ≤ (graph.beside path).card := by
  induction depth generalizing active path id with
  | zero => exact .inr ⟨rfl, Nat.zero_le _⟩
  | succ depth induction =>
      cases present : graph.node? id with
      | none =>
          rw [run_renderNode_of_missing present, renderAlong_of_missing present]
          exact .inl rfl
      | some node =>
          cases container : node.ellipsis? with
          | none =>
              rw [run_renderNode_of_leaf present container, renderAlong_of_leaf present container]
              exact .inl rfl
          | some ellipsis =>
              rw [run_renderNode_of_container present container,
                renderAlong_of_container present container]
              by_cases within : id ∈ active
              · rw [if_pos within, if_pos ((holds id).1 within)]
                exact .inl rfl
              · have outside : id ∉ path := fun member => within ((holds id).2 member)
                have fewer := card_beside_lt present outside
                rw [if_neg within, if_neg outside]
                rcases run_mapM fun item _ => @induction _ _ item (holds.insert id) with
                    texts | ⟨texts, short⟩
                · rw [texts, Option.map_some, erase_insert within]
                  exact .inl rfl
                · rw [texts]
                  exact .inr ⟨rfl, by omega⟩

private theorem run_renderNode_of_lt (holds : Holds active path)
    (deep : (graph.beside path).card < depth) :
    (graph.renderNode depth id).run active = some (graph.renderAlong path id, active) :=
  (run_renderNode holds).resolve_right fun short => Nat.not_le.2 deep short.2

end Active

private theorem holds_empty : Holds ∅ [] := by
  intro other
  exact iff_of_false Std.ExtTreeSet.not_mem_empty List.not_mem_nil

theorem render_eq (graph : Graph) (root : NodeId) :
    graph.render root = graph.renderAlong [] root := by
  have deep : (graph.beside []).card < graph.size + 1 := Nat.lt_succ_of_le (card_beside_le [])
  rw [render, StateT.run'_eq, run_renderNode_of_lt holds_empty deep]
  rfl

/-! ## Plain recursion -/

/-- Nothing that is met from a root lies within itself. -/
def Acyclic (graph : Graph) (root : NodeId) : Prop :=
  ∀ id, graph.Reaches root id → ¬graph.OnCycle id

section Acyclic

variable {root : NodeId}

/-- A path that leads to a position without having met anything that lies behind it. -/
def Before (graph : Graph) (path : List NodeId) (id : NodeId) : Prop :=
  ∀ other ∈ path, ¬graph.Reaches id other

private theorem Before.notMem {path : List NodeId} {id : NodeId} (before : graph.Before path id) :
    id ∉ path :=
  fun member => before id member .refl

private theorem Before.child (acyclic : graph.Acyclic root) {path : List NodeId} {id child : NodeId}
    (reaches : graph.Reaches root id) (before : graph.Before path id)
    (refers : graph.RefersTo id child) : graph.Before (id :: path) child := by
  intro other member behind
  rcases List.mem_cons.1 member with rfl | inPath
  · exact acyclic other reaches (.head' refers behind)
  · exact before other inPath (.head refers behind)

end Acyclic

/-! ## What is left out -/

/-- A tuple that holds itself beside a list that it holds twice. -/
example : render ⟨#[.tuple [0, 1, 1], .list []]⟩ 0 = "((...), [], [])" := by decide +kernel

end Graph

end PickleTrial
