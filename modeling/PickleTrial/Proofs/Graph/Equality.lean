import PickleTrial.Proofs.Graph.Distinct
import PickleTrial.Proofs.Number.Value

/-! Keys and equality. Scalars are equal if they are texts, or byte strings, of the same contents,
or numbers of the same value, whatever their kinds. Of two scalars a set keeps one if and only if
they have one key, and this is almost where they are equal. -/

namespace PickleTrial

/-! ## The values of scalars -/

/-- What a scalar is to an equality that looks at the values of numbers and not at their kinds. -/
inductive ScalarValue
  | none
  | finite (value : ℚ)
  | infinite (negative : Bool)
  | text (value : String)
  | bytes (value : Bytes)
deriving DecidableEq

namespace ScalarValue

/-- The value of a float; a NaN has none, as it is not even equal to itself. -/
def ofFloat? (number : Binary64) : Option ScalarValue :=
  if number.isNaN then Option.none
  else if number.isInfinite then some (.infinite number.negative)
  else some (.finite number.value)

/-- The value of a node. A large integer has one if its literal is one. -/
def ofNode? : Node → Option ScalarValue
  | .none => some .none
  | .bool value => some (.finite (if value then 1 else 0))
  | .int value => some (.finite value.toInt)
  | .bigInt literal => (Integer.ofLiteral? literal.toList).map fun (value : Int) => .finite value
  | .float value => ofFloat? value
  | .text value => some (.text value)
  | .bytes value => some (.bytes value)
  | _ => Option.none

variable {number : Binary64}

private theorem ofFloat?_eq_some_iff {value : ScalarValue} :
    ofFloat? number = some value ↔
      number.exponentField ≠ 2047 ∧ value = .finite number.value ∨
        number.exponentField = 2047 ∧ number.fraction = 0 ∧ value = .infinite number.negative := by
  rw [ofFloat?, Binary64.isNaN, Binary64.isInfinite]
  by_cases finite : number.exponentField = 2047 <;> by_cases whole : number.fraction = 0 <;>
    simp [finite, whole, eq_comm]

private theorem ofFloat?_eq_finite_iff {value : ℚ} :
    ofFloat? number = some (.finite value) ↔
      number.exponentField ≠ 2047 ∧ number.value = value := by
  rw [ofFloat?_eq_some_iff]
  simp [eq_comm]

private theorem toInt?_eq_some_iff {whole : Int} :
    number.toInt? = some whole ↔ ofFloat? number = some (.finite whole) := by
  rw [Binary64.toInt?_eq_some_iff, ofFloat?_eq_finite_iff]

private theorem ofNode?_bigInt_ne_text {literal value : String} :
    ofNode? (.bigInt literal) ≠ some (.text value) := by
  simp [ofNode?]

private theorem ofFloat?_ne_none : ofFloat? number ≠ some .none := by
  simp [ofFloat?_eq_some_iff]

private theorem ofFloat?_ne_text {value : String} : ofFloat? number ≠ some (.text value) := by
  simp [ofFloat?_eq_some_iff]

private theorem ofFloat?_ne_bytes {value : Bytes} : ofFloat? number ≠ some (.bytes value) := by
  simp [ofFloat?_eq_some_iff]

end ScalarValue

/-! ## The values of keys -/

namespace ScalarKey

def value? : ScalarKey → Option ScalarValue
  | .none => some .none
  | .int value => some (.finite value)
  | .float value => ScalarValue.ofFloat? value
  | .text value => some (.text value)
  | .bytes value => some (.bytes value)

/-- Whether a key is what a float of its value would have, if it is that of a number. -/
def Plain : ScalarKey → Prop
  | .int value => value.natAbs < 9000000000000000
  | .float value => ofFloat value = .float value
  | _ => True

private theorem ofFloat_eq_int_iff {number : Binary64} {whole : Int} :
    ofFloat number = .int whole ↔
      ScalarValue.ofFloat? number = some (.finite whole) ∧ whole.natAbs < 9000000000000000 := by
  rw [← ScalarValue.toInt?_eq_some_iff, ofFloat]
  cases number.toInt? with
  | none => simp
  | some other =>
      simp only [Option.some.injEq]
      split
      · rename_i small
        rw [ScalarKey.int.injEq]
        exact ⟨fun same => ⟨same, same ▸ small⟩, fun given => given.1⟩
      · rename_i large
        refine iff_of_false (fun same => nomatch same) ?_
        rintro ⟨rfl, small⟩
        exact large small

/-- The key of a float is a small integer or has its bits. -/
private theorem ofFloat_cases (number : Binary64) :
    (∃ whole, ofFloat number = .int whole) ∨ ofFloat number = .float number := by
  rw [ofFloat]
  split
  · split
    · exact Or.inl ⟨_, rfl⟩
    · exact Or.inr rfl
  · exact Or.inr rfl

private theorem plain_ofFloat (number : Binary64) : (ofFloat number).Plain := by
  rcases ofFloat_cases number with ⟨whole, key⟩ | key
  · rw [key]
    exact (ofFloat_eq_int_iff.1 key).2
  · rw [key]
    exact key

private theorem value?_ofFloat (number : Binary64) :
    (ofFloat number).value? = ScalarValue.ofFloat? number := by
  rcases ofFloat_cases number with ⟨whole, key⟩ | key
  · rw [key, (ofFloat_eq_int_iff.1 key).1]
    rfl
  · rw [key]
    rfl

private theorem float_ne_int_of_plain {number : Binary64} {whole : Int}
    (float : (ScalarKey.float number).Plain) (int : (ScalarKey.int whole).Plain) :
    ScalarValue.ofFloat? number ≠ some (.finite whole) := by
  intro value
  cases float.symm.trans (ofFloat_eq_int_iff.2 ⟨value, int⟩)

private theorem float_eq_of_plain {left right : Binary64} {value : ScalarValue}
    (plain : (ScalarKey.float left).Plain) (leftValue : ScalarValue.ofFloat? left = some value)
    (rightValue : ScalarValue.ofFloat? right = some value) : left = right := by
  have nonzero : value ≠ .finite 0 := by
    rintro rfl
    have small : (ScalarKey.int 0).Plain := by
      simp [Plain]
    exact float_ne_int_of_plain plain small (by simpa using leftValue)
  rw [ScalarValue.ofFloat?_eq_some_iff] at leftValue rightValue
  rcases leftValue with ⟨leftFinite, rfl⟩ | ⟨leftField, leftFraction, rfl⟩ <;>
    rcases rightValue with ⟨rightFinite, same⟩ | ⟨rightField, rightFraction, same⟩
  · refine Binary64.eq_of_value_eq leftFinite rightFinite (ScalarValue.finite.inj same) ?_
    exact fun zero => nonzero (congrArg ScalarValue.finite zero)
  · cases same
  · cases same
  · exact Binary64.eq_of_fields (ScalarValue.infinite.inj same) (leftField.trans rightField.symm)
      (leftFraction.trans rightFraction.symm)

/-- Plain keys are told by their values. -/
private theorem Plain.eq_of_value {left right : ScalarKey} {value : ScalarValue}
    (first : left.Plain) (second : right.Plain) (leftValue : left.value? = some value)
    (rightValue : right.value? = some value) : left = right := by
  cases left with
  | none =>
      cases leftValue
      cases right with
      | none => rfl
      | float => exact absurd rightValue ScalarValue.ofFloat?_ne_none
      | _ => cases rightValue
  | text =>
      cases leftValue
      cases right with
      | text => cases rightValue; rfl
      | float => exact absurd rightValue ScalarValue.ofFloat?_ne_text
      | _ => cases rightValue
  | bytes =>
      cases leftValue
      cases right with
      | bytes => cases rightValue; rfl
      | float => exact absurd rightValue ScalarValue.ofFloat?_ne_bytes
      | _ => cases rightValue
  | int whole =>
      cases leftValue
      cases right with
      | int other =>
          have same := ScalarValue.finite.inj (Option.some.inj rightValue)
          rw [Int.cast_inj] at same
          rw [same]
      | float => exact absurd rightValue (float_ne_int_of_plain second first)
      | _ => cases rightValue
  | float number =>
      cases right with
      | none => cases rightValue; exact absurd leftValue ScalarValue.ofFloat?_ne_none
      | text => cases rightValue; exact absurd leftValue ScalarValue.ofFloat?_ne_text
      | bytes => cases rightValue; exact absurd leftValue ScalarValue.ofFloat?_ne_bytes
      | int => cases rightValue; exact absurd leftValue (float_ne_int_of_plain first second)
      | float => rw [float_eq_of_plain first leftValue rightValue]

variable {node : Node} {key : ScalarKey}

/-- The key of a node has the value of the node, unless it is a literal. -/
private theorem value?_of_ofNode? (number : ∀ literal, node ≠ .bigInt literal)
    (found : ofNode? node = some key) : key.value? = ScalarValue.ofNode? node := by
  cases node with
  | bool value =>
      cases found
      cases value <;> simp [value?, ScalarValue.ofNode?]
  | bigInt literal => exact absurd rfl (number literal)
  | float value =>
      cases found
      exact value?_ofFloat value
  | none | int | text | bytes => cases found; rfl
  | _ => cases found

/-- It is plain, unless it is that of a large integer. -/
private theorem plain_of_ofNode? (found : ofNode? node = some key)
    (small : ∀ value, node = .int value → value.toInt.natAbs < 9000000000000000) : key.Plain := by
  cases node with
  | bool value =>
      cases found
      cases value <;> simp [Plain]
  | int value =>
      cases found
      exact small value rfl
  | float value =>
      cases found
      exact plain_ofFloat value
  | none | bigInt | text | bytes => cases found; trivial
  | _ => cases found

private theorem exists_key {value : ScalarValue} (valued : ScalarValue.ofNode? node = some value) :
    ∃ key, ofNode? node = some key := by
  cases node with
  | none | bool | int | bigInt | float | text | bytes => exact ⟨_, rfl⟩
  | _ => cases valued

end ScalarKey

/-! ## Keys beside equality -/

/-- Two scalars have one key although they are not equal, or two keys although they are. -/
inductive Mistaken : Node → Node → Prop
  /-- A literal has the key of the text of its characters. -/
  | text (literal : String) : Mistaken (.bigInt literal) (.text literal)
  /-- No other number has the key of a literal, and no literal of other characters. -/
  | literal {literal : String} {other : Node} {value : ScalarValue}
      (different : other ≠ .bigInt literal)
      (first : ScalarValue.ofNode? (.bigInt literal) = some value)
      (second : ScalarValue.ofNode? other = some value) : Mistaken (.bigInt literal) other
  /-- No float has the key of a large integer. -/
  | large {number : Binary64} {whole : Int64} (large : 9000000000000000 ≤ whole.toInt.natAbs)
      (equal : ScalarValue.ofFloat? number = some (.finite whole.toInt)) :
      Mistaken (.float number) (.int whole)

section Mistakes

variable {left right : Node} {first second : ScalarValue}

private theorem bigInt_or_text_of_key {node : Node} {literal : String}
    (key : ScalarKey.ofNode? node = ScalarKey.ofNode? (.bigInt literal)) :
    node = .bigInt literal ∨ node = .text literal := by
  cases node with
  | bigInt => cases key; exact Or.inl rfl
  | text => cases key; exact Or.inr rfl
  | float number =>
      have value := ScalarKey.value?_ofFloat number
      rw [Option.some.inj key] at value
      exact absurd value.symm ScalarValue.ofFloat?_ne_text
  | _ => cases key

private theorem Mistaken.key_iff_ne (mistaken : Mistaken left right)
    (leftValue : ScalarValue.ofNode? left = some first)
    (rightValue : ScalarValue.ofNode? right = some second) :
    ScalarKey.ofNode? left = ScalarKey.ofNode? right ↔ first ≠ second := by
  cases mistaken with
  | text literal =>
      refine iff_of_true rfl ?_
      rintro rfl
      cases rightValue
      exact ScalarValue.ofNode?_bigInt_ne_text leftValue
  | @literal literal _ _ different firstValue secondValue =>
      cases leftValue.symm.trans firstValue
      cases rightValue.symm.trans secondValue
      refine iff_of_false (fun same => ?_) (not_not.2 rfl)
      rcases bigInt_or_text_of_key same.symm with rfl | rfl
      · exact different rfl
      · cases secondValue
        exact ScalarValue.ofNode?_bigInt_ne_text firstValue
  | @large number whole large equal =>
      cases rightValue
      cases leftValue.symm.trans equal
      refine iff_of_false (fun same => ?_) (not_not.2 rfl)
      have small := (ScalarKey.ofFloat_eq_int_iff.1 (Option.some.inj same)).2
      exact Nat.not_lt.2 large small

private theorem key_eq_iff_of_bigInt {literal : String}
    (mistaken : ¬Mistaken (.bigInt literal) right)
    (leftValue : ScalarValue.ofNode? (.bigInt literal) = some first)
    (rightValue : ScalarValue.ofNode? right = some second) :
    ScalarKey.ofNode? (.bigInt literal) = ScalarKey.ofNode? right ↔ first = second := by
  by_cases itself : right = .bigInt literal
  · subst itself
    exact iff_of_true rfl (Option.some.inj (leftValue.symm.trans rightValue))
  · refine iff_of_false (fun same => ?_) ?_
    · rcases bigInt_or_text_of_key same.symm with rfl | rfl
      · exact itself rfl
      · exact mistaken (.text literal)
    · rintro rfl
      exact mistaken (.literal itself leftValue rightValue)

private theorem eq_int_or_mistaken {node : Node} {whole : Int64}
    (large : 9000000000000000 ≤ whole.toInt.natAbs) (number : ∀ literal, node ≠ .bigInt literal)
    (value : ScalarValue.ofNode? node = some (.finite whole.toInt)) :
    node = .int whole ∨ Mistaken node (.int whole) := by
  cases node with
  | bool truth =>
      have bit := ScalarValue.finite.inj (Option.some.inj value)
      have small : whole.toInt = if truth then 1 else 0 := by
        cases truth <;> simp only [Bool.false_eq_true, if_true, if_false] at bit ⊢ <;>
          exact_mod_cast bit.symm
      rw [small] at large
      cases truth <;> simp at large
  | int other =>
      have same := ScalarValue.finite.inj (Option.some.inj value)
      rw [Int.cast_inj, Int64.toInt_inj] at same
      exact Or.inl (congrArg Node.int same)
  | bigInt literal => exact absurd rfl (number literal)
  | float other => exact Or.inr (.large large value)
  | _ => cases value

private theorem key_eq_iff_of_number (leftNumber : ∀ literal, left ≠ .bigInt literal)
    (rightNumber : ∀ literal, right ≠ .bigInt literal) (there : ¬Mistaken left right)
    (back : ¬Mistaken right left) (leftValue : ScalarValue.ofNode? left = some first)
    (rightValue : ScalarValue.ofNode? right = some second) :
    ScalarKey.ofNode? left = ScalarKey.ofNode? right ↔ first = second := by
  rcases ScalarKey.exists_key leftValue with ⟨leftKey, leftFound⟩
  rcases ScalarKey.exists_key rightValue with ⟨rightKey, rightFound⟩
  have leftKeyValue := (ScalarKey.value?_of_ofNode? leftNumber leftFound).trans leftValue
  have rightKeyValue := (ScalarKey.value?_of_ofNode? rightNumber rightFound).trans rightValue
  rw [leftFound, rightFound, Option.some.injEq]
  constructor
  · rintro rfl
    exact Option.some.inj (leftKeyValue.symm.trans rightKeyValue)
  · rintro rfl
    by_cases leftSmall : ∀ whole, left = .int whole → whole.toInt.natAbs < 9000000000000000
    · by_cases rightSmall : ∀ whole, right = .int whole → whole.toInt.natAbs < 9000000000000000
      · exact (ScalarKey.plain_of_ofNode? leftFound leftSmall).eq_of_value
          (ScalarKey.plain_of_ofNode? rightFound rightSmall) leftKeyValue rightKeyValue
      · push Not at rightSmall
        rcases rightSmall with ⟨whole, rfl, large⟩
        cases rightValue
        rcases eq_int_or_mistaken large leftNumber leftValue with rfl | mistaken
        · exact Option.some.inj (leftFound.symm.trans rightFound)
        · exact absurd mistaken there
    · push Not at leftSmall
      rcases leftSmall with ⟨whole, rfl, large⟩
      cases leftValue
      rcases eq_int_or_mistaken large rightNumber rightValue with rfl | mistaken
      · exact Option.some.inj (leftFound.symm.trans rightFound)
      · exact absurd mistaken back

/-- Nodes have one key if and only if they are equal, but where they are mistaken. -/
private theorem key_iff_value_iff (leftValue : ScalarValue.ofNode? left = some first)
    (rightValue : ScalarValue.ofNode? right = some second) :
    (ScalarKey.ofNode? left = ScalarKey.ofNode? right ↔ first = second) ↔
      ¬(Mistaken left right ∨ Mistaken right left) := by
  constructor
  · rintro decided (mistaken | mistaken)
    · have wrong := mistaken.key_iff_ne leftValue rightValue
      exact absurd (wrong.symm.trans decided) (by simp)
    · have wrong := mistaken.key_iff_ne rightValue leftValue
      rw [eq_comm, ne_comm] at wrong
      exact absurd (wrong.symm.trans decided) (by simp)
  · intro clear
    have there : ¬Mistaken left right := fun mistaken => clear (Or.inl mistaken)
    have back : ¬Mistaken right left := fun mistaken => clear (Or.inr mistaken)
    by_cases leftNumber : ∀ literal, left ≠ .bigInt literal
    · by_cases rightNumber : ∀ literal, right ≠ .bigInt literal
      · exact key_eq_iff_of_number leftNumber rightNumber there back leftValue rightValue
      · push Not at rightNumber
        rcases rightNumber with ⟨literal, rfl⟩
        rw [eq_comm, eq_comm (a := first)]
        exact key_eq_iff_of_bigInt back rightValue leftValue
    · push Not at leftNumber
      rcases leftNumber with ⟨literal, rfl⟩
      exact key_eq_iff_of_bigInt there leftValue rightValue

end Mistakes

/-! ## Sets and dicts of two scalars -/

namespace Graph

/-- The second of two positions is dropped from the set of both, and is no key of a dict but gives
the first one its value. -/
structure Drops (graph : Graph) (first second : NodeId) : Prop where
  set : (graph.addSet [first, second]).2.node? graph.size = some (.set [first])
  dict (old new : NodeId) :
    (graph.addDict [(first, old), (second, new)]).2.node? graph.size = some (.dict [(first, new)])

/-- Two positions stay in the set of both, and are two keys of a dict. -/
structure Keeps (graph : Graph) (first second : NodeId) : Prop where
  set : (graph.addSet [first, second]).2.node? graph.size = some (.set [first, second])
  dict (old new : NodeId) :
    (graph.addDict [(first, old), (second, new)]).2.node? graph.size =
      some (.dict [(first, old), (second, new)])

variable {graph : Graph} {left right : NodeId} {leftNode rightNode : Node}
  {leftValue rightValue : ScalarValue}

private theorem node?_addSet_pair (graph : Graph) (first second : NodeId) :
    (graph.addSet [first, second]).2.node? graph.size =
      some (.set (if graph.SameScalar first second then [first] else [first, second])) := by
  rw [addSet, node?_add, if_pos rfl, unseen_eq_firsts, firsts_pair]

private theorem node?_addDict_pair (graph : Graph) (first second old new : NodeId) :
    (graph.addDict [(first, old), (second, new)]).2.node? graph.size =
      some (.dict (if graph.Same first second then [(first, new)]
        else [(first, old), (second, new)])) := by
  rw [addDict, node?_add, if_pos rfl]
  simp only [assignAll, List.foldl_cons, List.foldl_nil, assign, sameKey_iff]

/-- A scalar is dropped if and only if it is the same as the one before it. -/
private theorem drops_iff : graph.Drops left right ↔ graph.SameScalar left right := by
  constructor
  · intro drops
    by_contra different
    have stored := drops.set
    rw [node?_addSet_pair, if_neg different] at stored
    cases stored
  · intro same
    have merged : graph.Same left right := Or.inr same
    refine ⟨?_, fun old new => ?_⟩
    · rw [node?_addSet_pair, if_pos same]
    · rw [node?_addDict_pair, if_pos merged]

private theorem keeps_iff {key : ScalarKey} (scalar : graph.key? left = some key) :
    graph.Keeps left right ↔ ¬graph.SameScalar left right := by
  constructor
  · intro keeps same
    have stored := keeps.set
    rw [node?_addSet_pair, if_pos same] at stored
    cases stored
  · intro different
    have apart : ¬graph.Same left right := by
      rintro (rfl | same)
      · exact different ⟨key, scalar, scalar⟩
      · exact different same
    refine ⟨?_, fun old new => ?_⟩
    · rw [node?_addSet_pair, if_neg different]
    · rw [node?_addDict_pair, if_neg apart]

private theorem key?_eq (node : graph.node? left = some leftNode) :
    graph.key? left = ScalarKey.ofNode? leftNode := by
  rw [key?, node]
  rfl

/-- Whether equality decides which of two scalars stay. It does if and only if they are not
mistaken. -/
theorem equality_decides_iff (leftGiven : graph.node? left = some leftNode)
    (rightGiven : graph.node? right = some rightNode)
    (leftIs : ScalarValue.ofNode? leftNode = some leftValue)
    (rightIs : ScalarValue.ofNode? rightNode = some rightValue) :
    ((graph.Drops left right ∧ graph.Drops right left ↔ leftValue = rightValue) ↔
        ¬(Mistaken leftNode rightNode ∨ Mistaken rightNode leftNode)) ∧
      ((graph.Keeps left right ∧ graph.Keeps right left ↔ leftValue ≠ rightValue) ↔
        ¬(Mistaken leftNode rightNode ∨ Mistaken rightNode leftNode)) := by
  rcases ScalarKey.exists_key leftIs with ⟨leftKey, leftScalar⟩
  rcases ScalarKey.exists_key rightIs with ⟨rightKey, rightScalar⟩
  have same : graph.SameScalar left right ↔
      ScalarKey.ofNode? leftNode = ScalarKey.ofNode? rightNode := by
    rw [sameScalar_iff, key?_eq leftGiven, key?_eq rightGiven, rightScalar]
    simp
  have back : graph.SameScalar right left ↔ graph.SameScalar left right :=
    ⟨SameScalar.symm, SameScalar.symm⟩
  rw [← key?_eq leftGiven] at leftScalar
  rw [← key?_eq rightGiven] at rightScalar
  rw [drops_iff, drops_iff, keeps_iff leftScalar, keeps_iff rightScalar, back, and_self, and_self,
    same, ne_eq, not_iff_not, key_iff_value_iff leftIs rightIs]
  exact ⟨Iff.rfl, Iff.rfl⟩

/-- A large integer drops the text of its digits, and the text drops the integer. -/
theorem equality_decides_iff_digits :
    let digits := "9223372036854775808"
    let graph : Graph := ⟨#[.bigInt digits, .text digits]⟩
    let number : ScalarValue := .finite 9223372036854775808
    let text : ScalarValue := .text digits
    ScalarValue.ofNode? (.bigInt digits) = some number ∧
      ScalarValue.ofNode? (.text digits) = some text ∧ number ≠ text ∧
      graph.Drops 0 1 ∧ graph.Drops 1 0 ∧
      ¬(graph.Drops 0 1 ∧ graph.Drops 1 0 ↔ number = text) := by
  intro digits graph number text
  have first : graph.node? 0 = some (.bigInt digits) := rfl
  have second : graph.node? 1 = some (.text digits) := rfl
  have literal : Integer.ofLiteral? digits.toList = some 9223372036854775808 := by decide +kernel
  have firstIs : ScalarValue.ofNode? (.bigInt digits) = some number := by
    rw [ScalarValue.ofNode?, literal]
    norm_num [number]
  have secondIs : ScalarValue.ofNode? (.text digits) = some text := rfl
  have different : number ≠ text := fun same => nomatch same
  have same : graph.SameScalar 0 1 := ⟨.text digits, rfl, rfl⟩
  have decides := (equality_decides_iff first second firstIs secondIs).1
  exact ⟨firstIs, secondIs, different, drops_iff.2 same, drops_iff.2 same.symm,
    fun given => decides.1 given (Or.inl (.text digits))⟩

end Graph

end PickleTrial
