import Mathlib.Data.List.Induction
import Mathlib.Data.List.Nodup
import Mathlib.Order.Basic
import PickleTrial.Graph.Distinct

/-! Which items of a set and which entries of a dict stay. A dict keeps what stands first of each
key, with the value that stands last. A set keeps what stands first of each scalar, but an item
that is no scalar as often as it is given. -/

namespace PickleTrial

/-! ## What stands first -/

section Firsts

variable {α : Type} (same : α → α → Prop) [DecidableRel same]

/-- The items that are the same as none before them, in order. -/
def firsts (items : List α) : List α :=
  (items.zipIdx.filter fun (placed : α × Nat) =>
    decide (∀ earlier ∈ items.take placed.2, ¬same earlier placed.1)).map Prod.fst

example : firsts (fun left right => left % 10 = right % 10) [3, 14, 13, 4, 5] = [3, 14, 5] := by
  decide

private theorem firsts_concat (items : List α) (item : α) :
    firsts same (items ++ [item]) =
      firsts same items ++ if ∃ earlier ∈ items, same earlier item then [] else [item] := by
  have before : (items.zipIdx.filter fun (placed : α × Nat) =>
      decide (∀ earlier ∈ (items ++ [item]).take placed.2, ¬same earlier placed.1)) =
        items.zipIdx.filter fun (placed : α × Nat) =>
          decide (∀ earlier ∈ items.take placed.2, ¬same earlier placed.1) := by
    refine List.filter_congr fun placed member => ?_
    have place : placed.2 < items.length := by
      have inside := List.snd_lt_of_mem_zipIdx member
      omega
    rw [List.take_append_of_le_length (Nat.le_of_lt place)]
  have last : (items ++ [item]).take items.length = items := List.take_left' rfl
  rw [firsts, List.zipIdx_append, List.filter_append, before, List.map_append, ← firsts]
  congr 1
  rw [Nat.zero_add, List.zipIdx_singleton, List.filter_singleton, last]
  by_cases found : ∃ earlier ∈ items, same earlier item
  · rw [if_pos found]
    rcases found with ⟨earlier, member, equal⟩
    have seen : ¬∀ earlier ∈ items, ¬same earlier item := fun none => none earlier member equal
    simp [seen]
  · rw [if_neg found]
    have new : ∀ earlier ∈ items, ¬same earlier item :=
      fun earlier member equal => found ⟨earlier, member, equal⟩
    rw [decide_eq_true new]
    rfl

theorem firsts_pair (first second : α) :
    firsts same [first, second] = if same first second then [first] else [first, second] := by
  have alone : firsts same [first] = [first] := by
    refine (firsts_concat same [] first).trans ?_
    rw [if_neg fun found => found.elim fun earlier given => List.not_mem_nil given.1]
    rfl
  refine (firsts_concat same [first] second).trans ?_
  simp only [alone, List.mem_singleton, exists_eq_left]
  split <;> rfl

variable {same} {items : List α}

private theorem mem_firsts_iff {item : α} :
    item ∈ firsts same items ↔
      ∃ before after, items = before ++ item :: after ∧ ∀ earlier ∈ before, ¬same earlier item := by
  induction items using List.reverseRecOn with
  | nil => simp [firsts]
  | append_singleton items last induction =>
      rw [firsts_concat, List.mem_append, induction]
      constructor
      · intro member
        rcases member with ⟨before, after, rfl, new⟩ | member
        · exact ⟨before, after ++ [last], by simp, new⟩
        · split at member
          · cases member
          · rename_i none
            rw [List.mem_singleton] at member
            subst member
            exact ⟨items, [], rfl, fun earlier inside equal => none ⟨earlier, inside, equal⟩⟩
      · intro split
        rcases split with ⟨before, after, split, new⟩
        rcases List.eq_nil_or_concat after with rfl | ⟨after, final, rfl⟩
        · have ends := List.append_inj' split rfl
          rcases ends with ⟨rfl, ends⟩
          cases ends
          refine Or.inr ?_
          rw [if_neg fun found => found.elim fun earlier given => new earlier given.1 given.2]
          exact List.mem_singleton_self _
        · rw [List.concat_eq_append, ← List.cons_append, ← List.append_assoc] at split
          rcases List.append_inj' split rfl with ⟨rfl, -⟩
          exact Or.inl ⟨before, after, rfl, new⟩

theorem mem_of_mem_firsts {item : α} (member : item ∈ firsts same items) : item ∈ items := by
  rcases mem_firsts_iff.1 member with ⟨before, after, rfl, -⟩
  exact List.mem_append_right _ List.mem_cons_self

private theorem pairwise_firsts (same : α → α → Prop) [DecidableRel same] (items : List α) :
    (firsts same items).Pairwise fun earlier later => ¬same earlier later := by
  induction items using List.reverseRecOn with
  | nil => exact .nil
  | append_singleton items last induction =>
      rw [firsts_concat]
      split
      · rw [List.append_nil]
        exact induction
      · rename_i none
        refine List.pairwise_append.2 ⟨induction, List.pairwise_singleton _ _, ?_⟩
        intro earlier member later inside
        rw [List.mem_singleton.1 inside]
        exact fun equal => none ⟨earlier, mem_of_mem_firsts member, equal⟩

/-- What is in a list is, or is the same as, something that stands first in it. -/
private theorem exists_mem_firsts (trans : ∀ first second third, same first second →
    same second third → same first third) {item : α} (member : item ∈ items) :
    ∃ first ∈ firsts same items, first = item ∨ same first item := by
  induction items using List.reverseRecOn generalizing item with
  | nil => cases member
  | append_singleton items last induction =>
      rw [firsts_concat]
      rcases List.mem_append.1 member with inside | inside
      · rcases induction inside with ⟨first, found, equal⟩
        exact ⟨first, List.mem_append_left _ found, equal⟩
      · rw [List.mem_singleton] at inside
        subst inside
        split
        · rename_i seen
          rcases seen with ⟨earlier, inside, equal⟩
          rcases induction inside with ⟨first, found, rfl | link⟩
          · exact ⟨first, List.mem_append_left _ found, Or.inr equal⟩
          · exact ⟨first, List.mem_append_left _ found, Or.inr (trans _ _ _ link equal)⟩
        · exact ⟨item, List.mem_append_right _ (List.mem_singleton_self _), Or.inl rfl⟩

/-- An item that is the same as none in the list stays as often as it is there. -/
private theorem count_firsts [DecidableEq α] {item : α}
    (new : ∀ earlier ∈ items, ¬same earlier item) :
    (firsts same items).count item = items.count item := by
  induction items using List.reverseRecOn with
  | nil => rfl
  | append_singleton items last induction =>
      have later := induction fun earlier inside => new earlier (List.mem_append_left _ inside)
      rw [firsts_concat, List.count_append, List.count_append, later]
      split
      · rename_i seen
        have different : last ≠ item := by
          rintro rfl
          rcases seen with ⟨earlier, inside, equal⟩
          exact new earlier (List.mem_append_left _ inside) equal
        simp [different]
      · rfl

/-- If items are also the same where they are equal, then of those that stand first without this
each one stays once. -/
private theorem firsts_or_eq [DecidableEq α] (items : List α) :
    firsts (fun earlier later => earlier = later ∨ same earlier later) items =
      firsts Eq (firsts same items) := by
  induction items using List.reverseRecOn with
  | nil => rfl
  | append_singleton items last induction =>
      rw [firsts_concat, firsts_concat, induction]
      by_cases seen : ∃ earlier ∈ items, same earlier last
      · rcases seen with ⟨earlier, inside, equal⟩
        rw [if_pos ⟨earlier, inside, Or.inr equal⟩, if_pos ⟨earlier, inside, equal⟩,
          List.append_nil, List.append_nil]
      · rw [if_neg seen, firsts_concat]
        congr 2
        apply propext
        constructor
        · intro found
          rcases found with ⟨earlier, inside, rfl | equal⟩
          · rcases List.append_of_mem inside with ⟨before, after, rfl⟩
            refine ⟨earlier, mem_firsts_iff.2 ⟨before, after, rfl, fun other within equal => ?_⟩,
              rfl⟩
            exact seen ⟨other, List.mem_append_left _ within, equal⟩
          · exact absurd ⟨earlier, inside, equal⟩ seen
        · intro found
          rcases found with ⟨earlier, inside, rfl⟩
          exact ⟨earlier, mem_of_mem_firsts inside, Or.inl rfl⟩

private theorem firsts_eq_self_iff [DecidableEq α] {items : List α} :
    firsts Eq items = items ↔ items.Nodup := by
  refine ⟨fun same => same ▸ pairwise_firsts Eq items, fun nodup => ?_⟩
  induction items using List.reverseRecOn with
  | nil => rfl
  | append_singleton items last induction =>
      have parts := List.nodup_append.1 nodup
      have new : ¬∃ earlier ∈ items, earlier = last := by
        rintro ⟨earlier, inside, rfl⟩
        exact parts.2.2 earlier inside earlier (List.mem_singleton_self _) rfl
      rw [firsts_concat, induction parts.1, if_neg new]

end Firsts

namespace Graph

/-! ## Items that are the same -/

/-- Two positions hold scalars that count as one. -/
def SameScalar (graph : Graph) (left right : NodeId) : Prop :=
  ∃ key, graph.key? left = some key ∧ graph.key? right = some key

/-- Two positions are one, or hold scalars that count as one. -/
def Same (graph : Graph) (left right : NodeId) : Prop :=
  left = right ∨ graph.SameScalar left right

variable {graph : Graph} {left middle right : NodeId}

theorem sameScalar_iff :
    graph.SameScalar left right ↔
      (graph.key? right).isSome ∧ graph.key? left = graph.key? right := by
  constructor
  · intro given
    rcases given with ⟨key, first, second⟩
    exact ⟨second ▸ rfl, first.trans second.symm⟩
  · intro given
    rcases Option.isSome_iff_exists.1 given.1 with ⟨key, second⟩
    exact ⟨key, given.2.trans second, second⟩

theorem sameKey_iff : graph.sameKey left right = true ↔ graph.Same left right := by
  rw [sameKey, Same, sameScalar_iff]
  simp only [Bool.or_eq_true, Bool.and_eq_true, decide_eq_true_eq]

instance (graph : Graph) : DecidableRel graph.SameScalar :=
  fun _ _ => decidable_of_iff _ sameScalar_iff.symm

instance (graph : Graph) : DecidableRel graph.Same :=
  fun _ _ => inferInstanceAs (Decidable (_ ∨ _))

theorem SameScalar.symm (same : graph.SameScalar left right) : graph.SameScalar right left := by
  rcases same with ⟨key, first, second⟩
  exact ⟨key, second, first⟩

private theorem SameScalar.trans (first : graph.SameScalar left middle)
    (second : graph.SameScalar middle right) : graph.SameScalar left right := by
  rcases first with ⟨key, leftKey, middleKey⟩
  rcases second with ⟨other, otherKey, rightKey⟩
  cases middleKey.symm.trans otherKey
  exact ⟨key, leftKey, rightKey⟩

private theorem Same.symm (same : graph.Same left right) : graph.Same right left :=
  same.imp Eq.symm SameScalar.symm

private theorem Same.trans (first : graph.Same left middle) (second : graph.Same middle right) :
    graph.Same left right := by
  rcases first with rfl | first
  · exact second
  · rcases second with rfl | second
    · exact Or.inr first
    · exact Or.inr (first.trans second)

/-- Of the items that are the same as one, the first is what stands first. -/
private theorem exists_first (graph : Graph) {items : List NodeId} {item : NodeId}
    (member : item ∈ items) : ∃ first ∈ firsts graph.Same items, graph.Same first item := by
  have trans : ∀ first second third, graph.Same first second → graph.Same second third →
      graph.Same first third := fun _ _ _ => Same.trans
  rcases exists_mem_firsts trans member with ⟨first, stays, same⟩
  exact ⟨first, stays, same.elim Or.inl id⟩

/-! ## The entries of a dict -/

private theorem keys_assign (graph : Graph) (key value : NodeId) (kept : List (NodeId × NodeId)) :
    (graph.assign key value kept).map Prod.fst =
      kept.map Prod.fst ++
        if ∃ earlier ∈ kept.map Prod.fst, graph.Same earlier key then [] else [key] := by
  induction kept with
  | nil => rfl
  | cons entry rest induction =>
      rw [assign, List.map_cons]
      by_cases same : graph.Same entry.1 key
      · rw [if_pos (sameKey_iff.2 same), if_pos ⟨entry.1, List.mem_cons_self, same⟩,
          List.append_nil, List.map_cons]
      · rw [if_neg fun found => same (sameKey_iff.1 found), List.map_cons, induction]
        simp only [List.mem_cons, exists_eq_or_imp, same, false_or, List.cons_append]

private theorem mem_assign {key value : NodeId} {kept : List (NodeId × NodeId)}
    {entry : NodeId × NodeId}
    (distinct : kept.Pairwise fun earlier later => ¬graph.Same earlier.1 later.1)
    (member : entry ∈ graph.assign key value kept) :
    graph.Same entry.1 key ∧ entry.2 = value ∨ entry ∈ kept ∧ ¬graph.Same entry.1 key := by
  induction kept with
  | nil =>
      cases List.mem_singleton.1 member
      exact Or.inl ⟨Or.inl rfl, rfl⟩
  | cons first rest induction =>
      rw [List.pairwise_cons] at distinct
      rw [assign] at member
      by_cases same : graph.Same first.1 key
      · rw [if_pos (sameKey_iff.2 same)] at member
        rcases List.mem_cons.1 member with rfl | inside
        · exact Or.inl ⟨same, rfl⟩
        · refine Or.inr ⟨List.mem_cons_of_mem _ inside, fun other => ?_⟩
          exact distinct.1 entry inside (same.trans other.symm)
      · rw [if_neg fun found => same (sameKey_iff.1 found)] at member
        rcases List.mem_cons.1 member with rfl | inside
        · exact Or.inr ⟨List.mem_cons_self, same⟩
        · exact (induction distinct.2 inside).imp_right fun given =>
            ⟨List.mem_cons_of_mem _ given.1, given.2⟩

private theorem assignAll_concat (graph : Graph) (entries : List (NodeId × NodeId))
    (entry : NodeId × NodeId) :
    graph.assignAll (entries ++ [entry]) =
      graph.assign entry.1 entry.2 (graph.assignAll entries) := by
  rw [assignAll, List.foldl_append]
  rfl

/-- Of each key the one stays that stands first. -/
private theorem keys_assignAll (graph : Graph) (entries : List (NodeId × NodeId)) :
    (graph.assignAll entries).map Prod.fst = firsts graph.Same (entries.map Prod.fst) := by
  induction entries using List.reverseRecOn with
  | nil => rfl
  | append_singleton entries entry induction =>
      rw [assignAll_concat, keys_assign, induction, List.map_append, List.map_singleton,
        firsts_concat]
      congr 2
      apply propext
      constructor
      · intro found
        rcases found with ⟨earlier, member, same⟩
        exact ⟨earlier, mem_of_mem_firsts member, same⟩
      · intro found
        rcases found with ⟨earlier, member, same⟩
        rcases exists_first graph member with ⟨first, stays, link⟩
        exact ⟨first, stays, link.trans same⟩

theorem pairwise_assignAll (graph : Graph) (entries : List (NodeId × NodeId)) :
    (graph.assignAll entries).Pairwise fun earlier later => ¬graph.Same earlier.1 later.1 := by
  have keys := pairwise_firsts graph.Same (entries.map Prod.fst)
  rw [← keys_assignAll] at keys
  exact List.pairwise_map.1 keys

/-- What entries amount to where a key has one value. -/
structure Resolves (graph : Graph) (given kept : List (NodeId × NodeId)) : Prop where
  /-- Of each key the one stays that stands first, in order. -/
  keys : kept.map Prod.fst = firsts graph.Same (given.map Prod.fst)
  /-- Its value is the one that stands last. -/
  values : ∀ entry ∈ kept, ∃ before final after, given = before ++ final :: after ∧
    graph.Same final.1 entry.1 ∧ entry.2 = final.2 ∧
    ∀ later ∈ after, ¬graph.Same later.1 entry.1
  /-- No key is lost. -/
  covers : ∀ entry ∈ given, ∃ first ∈ kept, graph.Same first.1 entry.1

/-- The value of a key is the one that was assigned last. -/
private theorem exists_last_of_mem_assignAll {entries : List (NodeId × NodeId)}
    {entry : NodeId × NodeId} (member : entry ∈ graph.assignAll entries) :
    ∃ before final after, entries = before ++ final :: after ∧ graph.Same final.1 entry.1 ∧
      entry.2 = final.2 ∧ ∀ later ∈ after, ¬graph.Same later.1 entry.1 := by
  induction entries using List.reverseRecOn with
  | nil => cases member
  | append_singleton entries last induction =>
      rw [assignAll_concat] at member
      rcases mem_assign (pairwise_assignAll graph entries) member with ⟨same, value⟩ | ⟨stays, new⟩
      · exact ⟨entries, last, [], rfl, same.symm, value, fun later none => nomatch none⟩
      · rcases induction stays with ⟨before, final, after, rfl, same, value, none⟩
        refine ⟨before, final, after ++ [last], by simp, same, value, fun later inside => ?_⟩
        rcases List.mem_append.1 inside with inside | inside
        · exact none later inside
        · rw [List.mem_singleton.1 inside]
          exact fun other => new other.symm

theorem resolves_assignAll (graph : Graph) (entries : List (NodeId × NodeId)) :
    graph.Resolves entries (graph.assignAll entries) where
  keys := keys_assignAll graph entries
  values := fun _ => exists_last_of_mem_assignAll
  covers := by
    intro entry member
    rcases exists_first graph (List.mem_map_of_mem (f := Prod.fst) member) with ⟨key, stays, same⟩
    rw [← keys_assignAll] at stays
    rcases List.mem_map.1 stays with ⟨first, inside, rfl⟩
    exact ⟨first, inside, same⟩

/-! ## The items of a set -/

private theorem unseen_concat (graph : Graph) (seen : List ScalarKey) (items : List NodeId)
    (item : NodeId) :
    graph.unseen seen (items ++ [item]) =
      graph.unseen seen items ++
        if (∃ key ∈ seen, graph.key? item = some key) ∨
            ∃ earlier ∈ items, graph.SameScalar earlier item then [] else [item] := by
  induction items generalizing seen with
  | nil =>
      rw [List.nil_append, unseen]
      cases scalar : graph.key? item with
      | none => simp [unseen, scalar]
      | some key => simp [unseen, scalar]
  | cons head rest induction =>
      rw [List.cons_append, unseen, unseen]
      cases scalar : graph.key? head with
      | none =>
          have different : ¬graph.SameScalar head item := by
            rintro ⟨key, found, -⟩
            cases scalar.symm.trans found
          simp only [induction, List.mem_cons, exists_eq_or_imp, different, false_or,
            List.cons_append]
      | some key =>
          have same : graph.SameScalar head item ↔ graph.key? item = some key := by
            rw [SameScalar, scalar]
            exact ⟨fun ⟨other, first, second⟩ => first ▸ second, fun second => ⟨key, rfl, second⟩⟩
          by_cases old : key ∈ seen
          · have known : graph.key? item = some key → ∃ key ∈ seen, graph.key? item = some key :=
              fun found => ⟨key, old, found⟩
            simp only [if_pos old, induction, List.mem_cons, exists_eq_or_imp, same]
            congr 2
            apply propext
            constructor
            · exact Or.imp_right Or.inr
            · exact fun found => found.elim Or.inl (Or.imp_left known)
          · simp only [if_neg old, induction, List.mem_cons, exists_eq_or_imp, same,
              List.cons_append]
            congr 3
            rw [← or_assoc, or_comm (a := graph.key? item = some key)]

/-- Of each scalar the one stays that stands first. -/
theorem unseen_eq_firsts (graph : Graph) (items : List NodeId) :
    graph.unseen [] items = firsts graph.SameScalar items := by
  induction items using List.reverseRecOn with
  | nil => rfl
  | append_singleton items item induction =>
      rw [unseen_concat, firsts_concat, induction]
      simp

/-! ## Sets beside dicts -/

/-- Whether no item without a key is given twice. -/
def GivenOnce (graph : Graph) (items : List NodeId) : Prop :=
  ∀ id, graph.key? id = none → items.count id ≤ 1

private theorem nodup_firsts_sameScalar_iff {items : List NodeId} :
    (firsts graph.SameScalar items).Nodup ↔ graph.GivenOnce items := by
  rw [List.nodup_iff_count_le_one]
  have alone {id : NodeId} (scalar : graph.key? id = none) :
      (firsts graph.SameScalar items).count id = items.count id := by
    refine count_firsts ?_
    rintro earlier - ⟨key, -, found⟩
    cases scalar.symm.trans found
  constructor
  · intro once id scalar
    rw [← alone scalar]
    exact once id
  · intro once id
    cases scalar : graph.key? id with
    | none =>
        rw [alone scalar]
        exact once id scalar
    | some key =>
        by_contra often
        have twice : List.Sublist [id, id] (firsts graph.SameScalar items) :=
          List.replicate_sublist_iff.2 (Nat.lt_of_not_le often)
        have different := (pairwise_firsts graph.SameScalar items).sublist twice
        exact List.rel_of_pairwise_cons different List.mem_cons_self ⟨key, scalar, scalar⟩

/-- How the set of some items and the dict with these as its keys compare. -/
structure Agreement (graph : Graph) (items kept : List NodeId)
    (entries : List (NodeId × NodeId)) : Prop where
  distinct : kept.Pairwise fun earlier later => ¬graph.SameScalar earlier later
  /-- Every item is represented by the first that is the same. -/
  represented : ∀ item ∈ items, ∃ before first after, items = before ++ first :: after ∧
    first ∈ kept ∧ first ∈ entries.map Prod.fst ∧ graph.Same first item ∧
    ∀ earlier ∈ before, ¬graph.Same earlier item
  /-- The keys are the items of the set, each once. -/
  keys : entries.map Prod.fst = firsts Eq kept
  /-- So they are the items of the set if and only if no item without a key is given twice. -/
  agree : kept = entries.map Prod.fst ↔ graph.GivenOnce items
  nodup : kept.Nodup ↔ graph.GivenOnce items

theorem exists_agreement (graph : Graph) (given : List (NodeId × NodeId)) :
    ∃ kept entries,
      (graph.addSet (given.map Prod.fst)).2.node? graph.size = some (.set kept) ∧
      (graph.addDict given).2.node? graph.size = some (.dict entries) ∧
      graph.Agreement (given.map Prod.fst) kept entries := by
  have items := unseen_eq_firsts graph (given.map Prod.fst)
  have keys : (graph.assignAll given).map Prod.fst =
      firsts Eq (graph.unseen [] (given.map Prod.fst)) := by
    rw [keys_assignAll, items]
    exact firsts_or_eq (given.map Prod.fst)
  refine ⟨graph.unseen [] (given.map Prod.fst), graph.assignAll given, ?_, ?_, {
    distinct := ?_
    represented := fun item member => ?_
    keys
    agree := ?_
    nodup := ?_ }⟩
  · rw [addSet, node?_add, if_pos rfl]
  · rw [addDict, node?_add, if_pos rfl]
  · rw [items]
    exact pairwise_firsts _ _
  · rcases exists_first graph member with ⟨first, stays, same⟩
    rcases mem_firsts_iff.1 stays with ⟨before, after, split, new⟩
    rw [← keys_assignAll] at stays
    refine ⟨before, first, after, split, ?_, stays, same, fun earlier inside other => ?_⟩
    · rw [keys] at stays
      exact mem_of_mem_firsts stays
    · exact new earlier inside (other.trans same.symm)
  · rw [keys, eq_comm, firsts_eq_self_iff, items]
    exact nodup_firsts_sameScalar_iff
  · rw [items]
    exact nodup_firsts_sameScalar_iff

/-- A tuple that is given twice is kept twice in a set, and once as a key. -/
theorem agreement_tupleTwice :
    let graph : Graph := ⟨#[.tuple []]⟩
    (graph.addSet [0, 0]).2.node? 1 = some (.set [0, 0]) ∧
      (graph.addDict [(0, 0), (0, 0)]).2.node? 1 = some (.dict [(0, 0)]) ∧
      graph.Agreement [0, 0] [0, 0] [(0, 0)] := by
  intro graph
  rcases exists_agreement graph [(0, 0), (0, 0)] with ⟨kept, entries, set, dict, agreement⟩
  have twice : kept = [0, 0] := Node.set.inj (Option.some.inj (set.symm.trans (by decide)))
  have once : entries = [(0, 0)] := Node.dict.inj (Option.some.inj (dict.symm.trans (by decide)))
  subst twice once
  exact ⟨set, dict, agreement⟩

end Graph

end PickleTrial
