import PickleTrial.Proofs.Encoding.Opcodes

/-! What stands in a plan. Its opcodes are those of the protocol, the nodes it leaves open are the
children of the node, and the only key it takes a slot with is the node's own. -/

namespace PickleTrial

/-- Whether a node takes a slot of its own when it is written: scalars and the empty tuple have
nothing that could be referred back to. -/
def Node.takesSlot : Node → Bool
  | .none | .bool _ | .int _ | .bigInt _ | .float _ => false
  | .tuple items => !items.isEmpty
  | _ => true

namespace Protocol

variable {protocol : Protocol}

/-! ## Batches -/

private theorem flatten_batchesWithin {α : Type} {rounds : Nat} {items : List α}
    (enough : items.length ≤ rounds) : (batchesWithin rounds items).flatten = items := by
  induction rounds generalizing items with
  | zero => simp_all [batchesWithin]
  | succ rounds induction =>
      cases items with
      | nil => simp [batchesWithin]
      | cons head tail =>
          have shorter : ((head :: tail).drop batchSize).length ≤ rounds := by
            simp only [List.length_drop, batchSize]
            omega
          rw [batchesWithin, List.flatten_cons, induction shorter, List.take_append_drop]
          simp

theorem flatten_batches {α : Type} (items : List α) : (batches items).flatten = items :=
  flatten_batchesWithin (Nat.le_refl _)

private theorem length_of_mem_batchesWithin {α : Type} {rounds : Nat} {items batch : List α}
    (member : batch ∈ batchesWithin rounds items) :
    0 < batch.length ∧ batch.length ≤ batchSize := by
  induction rounds generalizing items with
  | zero => simp [batchesWithin] at member
  | succ rounds induction =>
      cases items with
      | nil => simp [batchesWithin] at member
      | cons head tail =>
          rw [batchesWithin] at member
          · rcases List.mem_cons.1 member with rfl | later
            · simp only [List.length_take, List.length_cons, batchSize]
              omega
            · exact induction later
          · simp

theorem length_of_mem_batches {α : Type} {items batch : List α} (member : batch ∈ batches items) :
    0 < batch.length ∧ batch.length ≤ batchSize :=
  length_of_mem_batchesWithin member

theorem mem_of_mem_batches {α : Type} {items batch : List α} {item : α}
    (member : batch ∈ batches items) (inBatch : item ∈ batch) : item ∈ items := by
  rw [← flatten_batches items]
  exact List.mem_flatten_of_mem member inBatch

private theorem batchesWithin_map {α β : Type} (change : α → β) (rounds : Nat) (items : List α) :
    batchesWithin rounds (items.map change) =
      (batchesWithin rounds items).map (List.map change) := by
  induction rounds generalizing items with
  | zero => simp [batchesWithin]
  | succ rounds induction =>
      cases items with
      | nil => simp [batchesWithin]
      | cons head tail =>
          rw [List.map_cons, batchesWithin, batchesWithin, ← List.map_cons, ← List.map_drop,
            induction, ← List.map_take, List.map_cons]
          · simp
          · simp

theorem batches_map {α β : Type} (change : α → β) (items : List α) :
    batches (items.map change) = (batches items).map (List.map change) := by
  rw [batches, batches, List.length_map, batchesWithin_map]

/-- Items are added in batches, or else one by one. -/
theorem inBatches_or_oneByOne (protocol : Protocol) (single : Option Opcode) :
    (protocol.version ≠ 0 ∨ single = none) ∨
      ∃ opcode, protocol.version = 0 ∧ single = some opcode := by
  by_cases oldest : protocol.version = 0
  · cases single with
    | none => exact .inl (.inr rfl)
    | some opcode => exact .inr ⟨opcode, oldest, rfl⟩
  · exact .inl (.inl oldest)

def batchSteps (single : Option Opcode) (several : Opcode) (batch : List (List Step)) :
    List Step :=
  match batch, single with
  | [item], some single => item ++ [.op single]
  | items, _ => .op .mark :: items.flatten ++ [.op several]

theorem additions_oneByOne (oldest : protocol.version = 0) (single several : Opcode)
    (items : List (List Step)) :
    protocol.additions (some single) several items = items.flatMap (· ++ [.op single]) := by
  simp [additions, oldest]

theorem additions_inBatches {single : Option Opcode}
    (inBatches : protocol.version ≠ 0 ∨ single = none) (several : Opcode)
    (items : List (List Step)) :
    protocol.additions single several items =
      (batches items).flatMap (batchSteps single several) := by
  unfold additions
  split
  · rename_i single oldest
    rcases inBatches with binary | none
    · exact absurd oldest binary
    · cases none
  · rfl

/-- A property of steps that opcodes have, and that steps have which are put together of steps that
have it. -/
structure Additive (holds : List Step → Prop) : Prop where
  nil : holds []
  op (opcode : Opcode) : holds [.op opcode]
  append {first second : List Step} : holds first → holds second → holds (first ++ second)

namespace Additive

variable {holds : List Step → Prop} {items : List (List Step)}

theorem flatMap (additive : Additive holds) {α : Type} {values : List α} {steps : α → List Step}
    (each : ∀ value ∈ values, holds (steps value)) : holds (values.flatMap steps) := by
  induction values with
  | nil => exact additive.nil
  | cons value rest induction =>
      have parts := List.forall_mem_cons.1 each
      exact additive.append parts.1 (induction parts.2)

theorem batchSteps (additive : Additive holds) {single : Option Opcode} {several : Opcode}
    (inItems : ∀ item ∈ items, holds item) :
    holds (Protocol.batchSteps single several items) := by
  unfold Protocol.batchSteps
  split
  · exact additive.append (inItems _ List.mem_cons_self) (additive.op _)
  · refine additive.append (additive.append (additive.op .mark) ?_) (additive.op several)
    rw [← List.flatMap_id]
    exact additive.flatMap inItems

/-- What the items have, the items have where they are added to a list, dict or set. -/
theorem additions (additive : Additive holds) {single : Option Opcode} {several : Opcode}
    (inItems : ∀ item ∈ items, holds item) : holds (protocol.additions single several items) := by
  rcases protocol.inBatches_or_oneByOne single with inBatches | ⟨single, oldest, rfl⟩
  · rw [additions_inBatches inBatches]
    exact additive.flatMap fun batch listed => additive.batchSteps fun item inside =>
      inItems item (mem_of_mem_batches listed inside)
  · rw [additions_oneByOne oldest]
    exact additive.flatMap fun item listed =>
      additive.append (inItems item listed) (additive.op single)

end Additive

/-! ## Plans by node -/

/-- A literal is planned as the integer that is read from it. -/
theorem plan_bigInt (protocol : Protocol) (id : NodeId) (literal : String) :
    protocol.plan id (.bigInt literal) =
      match Integer.ofLiteral? literal.toList with
      | some value => .ok (protocol.int value)
      | none => .error (.invalidInteger literal) := by
  rw [plan, SignedDigits.ofLiteral?_eq_map]
  cases Integer.ofLiteral? literal.toList with
  | none => rfl
  | some value =>
      simp only [Option.map_some, digitsOpcode_ofInt]
      rfl

theorem arrayItems_integers (code : IntegerCode) (words : List (BitVec (8 * code.width))) :
    protocol.arrayItems (.integers code words) =
      words.map fun word => protocol.int (code.value word) := by
  simp only [arrayItems, itemOpcode_eq]
  rfl

/-- The number of the machine format is written as the integer that it is. -/
theorem array_eq_call (value : TypedArray) (key : Option MemoKey) :
    protocol.array value key =
      if 3 ≤ protocol.version then
        protocol.call .restoreArray
          [[.callable .array], protocol.freshText (String.singleton value.letter),
            protocol.int value.machineFormat, protocol.bytes value.packed none] key
      else
        protocol.call .array
          [protocol.freshText (String.singleton value.letter),
            protocol.list (protocol.arrayItems value) none] key := by
  have small : value.machineFormat ≤ 20 := by
    cases value with
    | integers code =>
        change code.machineFormat ≤ 20
        cases code <;> decide
    | _ => exact Nat.le_of_ble_eq_true rfl
  have format : (Int64.ofNat value.machineFormat).toInt = value.machineFormat :=
    Int64.toInt_ofNat_of_lt (by omega)
  simp only [array, word_eq, format]

/-- Where the microseconds fit 64 bits, so do the parts. -/
theorem plan_duration (protocol : Protocol) {value : Duration} {count : Int}
    (counted : value.microseconds? = some count) (id : NodeId) :
    protocol.plan id (.duration value) =
      .ok (protocol.call .duration
        [protocol.int (Duration.parts count).days, protocol.int (Duration.parts count).seconds,
          protocol.int (Duration.parts count).microseconds] (some (.node id))) := by
  have fits : Integer.FitsInt64 count := by
    have checked := counted
    rw [Duration.microseconds?] at checked
    split at checked <;> cases checked
    assumption
  rw [Integer.FitsInt64] at fits
  have days : (Int64.ofInt (Duration.parts count).days).toInt = (Duration.parts count).days := by
    apply Int64.toInt_ofInt_of_le <;> simp only [Duration.parts] <;> omega
  have seconds : (Int64.ofNat (Duration.parts count).seconds).toInt =
      (Duration.parts count).seconds := by
    apply Int64.toInt_ofNat_of_lt
    simp only [Duration.parts]
    omega
  have microseconds : (Int64.ofNat (Duration.parts count).microseconds).toInt =
      (Duration.parts count).microseconds := by
    apply Int64.toInt_ofNat_of_lt
    simp only [Duration.parts]
    omega
  simp only [plan, counted, duration, word_eq, days, seconds, microseconds]

/-- The plan of a node, where it has one: a literal must stand for a number, and a duration must
not be beyond what is counted. -/
inductive HasPlan (protocol : Protocol) (id : NodeId) : Node → List Step → Prop
  | none : HasPlan protocol id .none [.op .none]
  | bool (value : Bool) : HasPlan protocol id (.bool value) [.op (protocol.boolOpcode value)]
  | int (value : Int64) : HasPlan protocol id (.int value) (protocol.int value.toInt)
  | bigInt {literal : String} {value : Int}
      (read : Integer.ofLiteral? literal.toList = some value) :
      HasPlan protocol id (.bigInt literal) (protocol.int value)
  | float (value : Binary64) : HasPlan protocol id (.float value) (protocol.float value)
  | text (value : String) : HasPlan protocol id (.text value)
      [.op (protocol.textOpcode value), .remember (some (.node id))]
  | bytes (value : Bytes) :
      HasPlan protocol id (.bytes value) (protocol.bytes value (some (.node id)))
  | byteArray (value : Bytes) :
      HasPlan protocol id (.byteArray value) (protocol.byteArray value (some (.node id)))
  | complex (re im : Binary64) : HasPlan protocol id (.complex re im)
      (protocol.call .complex [protocol.float re, protocol.float im] (some (.node id)))
  | moment (value : Moment) : HasPlan protocol id (.moment value)
      (protocol.call .moment [protocol.bytes value.packed none] (some (.node id)))
  | date (value : Date) : HasPlan protocol id (.date value)
      (protocol.call .date [protocol.bytes value.packed none] (some (.node id)))
  | time (value : Time) : HasPlan protocol id (.time value)
      (protocol.call .time [protocol.bytes value.packed none] (some (.node id)))
  | duration {value : Duration} {count : Int} (counted : value.microseconds? = some count) :
      HasPlan protocol id (.duration value)
        (protocol.call .duration
          [protocol.int (Duration.parts count).days, protocol.int (Duration.parts count).seconds,
            protocol.int (Duration.parts count).microseconds] (some (.node id)))
  | decimal {literal text : String} (canonical : Decimal.canonical? literal = some text) :
      HasPlan protocol id (.decimal literal)
        (protocol.call .decimal [protocol.freshText text] (some (.node id)))
  | array (value : TypedArray) :
      HasPlan protocol id (.array value) (protocol.array value (some (.node id)))
  | emptyTuple : HasPlan protocol id (.tuple []) protocol.emptyTuple
  | tuple {items : List NodeId} (nonempty : items ≠ []) : HasPlan protocol id (.tuple items)
      (protocol.tupleItems (items.map fun item => [.node item]) ++ [.endTuple id items.length])
  | list (items : List NodeId) : HasPlan protocol id (.list items)
      (protocol.list (items.map fun item => [.node item]) (some (.node id)))
  | set (items : List NodeId) :
      HasPlan protocol id (.set items) (protocol.set items (some (.node id)))
  | dict (entries : List (NodeId × NodeId)) :
      HasPlan protocol id (.dict entries) (protocol.dict entries (some (.node id)))

theorem hasPlan_of_plan {id : NodeId} {node : Node} {steps : List Step}
    (plan : protocol.plan id node = .ok steps) : HasPlan protocol id node steps := by
  cases node with
  | bigInt literal =>
      rw [plan_bigInt] at plan
      split at plan <;> cases plan
      exact .bigInt ‹_›
  | int value =>
      rw [Protocol.plan, word_eq] at plan
      cases plan
      exact .int value
  | duration value =>
      cases counted : value.microseconds? with
      | none => simp only [Protocol.plan, counted, reduceCtorEq] at plan
      | some count =>
          rw [plan_duration protocol counted] at plan
          cases plan
          exact .duration counted
  | decimal literal =>
      rw [Protocol.plan] at plan
      split at plan <;> cases plan
      constructor
      assumption
  | tuple items =>
      rw [Protocol.plan] at plan
      split at plan <;> cases plan
      · rename_i empty
        cases List.isEmpty_iff.1 empty
        exact .emptyTuple
      · rename_i nonempty
        exact .tuple (by simpa using nonempty)
  | _ =>
      cases plan
      constructor

/-! ## Steps that every plan may hold -/

/-- A step that neither leaves a node open nor takes a slot with the key of one. -/
inductive Glue (protocol : Protocol) : Step → Prop
  | split : Glue protocol .split
  | op {opcode : Opcode} (plain : opcode.Plain protocol) : Glue protocol (.op opcode)
  | fresh : Glue protocol (.remember none)
  | sharedText (content : String) : Glue protocol (.sharedText content)
  | callable (callable : Callable) : Glue protocol (.callable callable)

theorem glue_emptyTuple : ∀ step ∈ protocol.emptyTuple, Glue protocol step := by
  rw [emptyTuple]
  split
  · simp only [List.forall_mem_cons]
    exact ⟨.op protocol.mark_plain, .op (.bare (Nat.zero_le _) rfl trivial rfl rfl), by simp⟩
  · rename_i binary
    simp only [List.forall_mem_cons]
    exact ⟨.op (.bare (Nat.pos_of_ne_zero binary) rfl trivial rfl rfl), by simp⟩

private theorem glue_freshText (content : String) :
    ∀ step ∈ protocol.freshText content, Glue protocol step := by
  rw [freshText]
  simp only [List.forall_mem_cons]
  exact ⟨.op (protocol.textOpcode_plain content), .fresh, by simp⟩

private theorem glue_int (value : Int) : ∀ step ∈ protocol.int value, Glue protocol step := by
  rw [int]
  simp only [List.forall_mem_cons]
  exact ⟨.op (protocol.intOpcode_plain value), by simp⟩

private theorem glue_float (value : Binary64) :
    ∀ step ∈ protocol.float value, Glue protocol step := by
  rw [float]
  simp only [List.forall_mem_cons]
  exact ⟨.op (protocol.floatOpcode_plain value), by simp⟩

section Allowed

variable {allowed : Step → Prop} (glue : ∀ {step : Step}, Glue protocol step → allowed step)
  {items : List (List Step)} (inItems : ∀ item ∈ items, ∀ step ∈ item, allowed step)

include glue inItems

theorem allowed_tupleItems : ∀ step ∈ protocol.tupleItems items, allowed step := by
  intro step member
  rcases List.mem_append.1 member with inMark | inItem
  · split at inMark
    · cases inMark
    · rw [List.mem_singleton.1 inMark]
      exact glue (.op protocol.mark_plain)
  · rcases List.mem_flatMap.1 inItem with ⟨item, listed, inItem⟩
    rcases List.mem_cons.1 inItem with rfl | inItem
    · exact glue .split
    · exact inItems item listed step inItem

private theorem allowed_arguments : ∀ step ∈ protocol.arguments items, allowed step := by
  intro step member
  rw [arguments] at member
  split at member
  · exact glue (glue_emptyTuple step member)
  · rcases List.mem_append.1 member with inItem | atEnd
    · exact allowed_tupleItems glue inItems step inItem
    · simp only [List.mem_cons, List.not_mem_nil, or_false] at atEnd
      rcases atEnd with rfl | rfl
      · exact glue (.op (protocol.tupleOpcode_plain _))
      · exact glue .fresh

private theorem exists_call_eq (callable : Callable) (key : Option MemoKey) :
    ∃ before, protocol.call callable items key = before ++ [.remember key] ∧
      ∀ step ∈ before, allowed step := by
  refine ⟨.callable callable :: protocol.arguments items ++ [.op .reduce], by simp [call], ?_⟩
  intro step member
  rcases List.mem_append.1 member with member | last
  · rcases List.mem_cons.1 member with rfl | inArguments
    · exact glue (.callable callable)
    · exact allowed_arguments glue inItems step inArguments
  · rw [List.mem_singleton.1 last]
    exact glue (.op (.bare (Nat.zero_le _) rfl trivial rfl rfl))

private theorem allowed_batchSteps {single : Option Opcode} {several : Opcode}
    (oneByOne : ∀ opcode ∈ single, opcode.Plain protocol) (together : several.Plain protocol) :
    ∀ step ∈ batchSteps single several items, allowed step := by
  intro step member
  unfold batchSteps at member
  split at member
  · rename_i item single
    rcases List.mem_append.1 member with inItem | last
    · exact inItems item List.mem_cons_self step inItem
    · rw [List.mem_singleton.1 last]
      exact glue (.op (oneByOne _ rfl))
  · rcases List.mem_cons.1 member with rfl | member
    · exact glue (.op protocol.mark_plain)
    · rcases List.mem_append.1 member with inItem | last
      · rcases List.mem_flatten.1 inItem with ⟨item, inside, inItem⟩
        exact inItems item inside step inItem
      · rw [List.mem_singleton.1 last]
        exact glue (.op together)

private theorem allowed_additions {single : Option Opcode} {several : Opcode}
    (oneByOne : ∀ opcode ∈ single, opcode.Plain protocol)
    (together : protocol.version ≠ 0 ∨ single = none → several.Plain protocol) :
    ∀ step ∈ protocol.additions single several items, allowed step := by
  intro step member
  rcases protocol.inBatches_or_oneByOne single with inBatches | ⟨single, oldest, rfl⟩
  · rw [additions_inBatches inBatches] at member
    rcases List.mem_flatMap.1 member with ⟨batch, listed, inBatch⟩
    exact allowed_batchSteps glue
      (fun item inside => inItems item (mem_of_mem_batches listed inside))
      oneByOne (together inBatches) step inBatch
  · rw [additions_oneByOne oldest] at member
    rcases List.mem_flatMap.1 member with ⟨item, listed, inItem⟩
    rcases List.mem_append.1 inItem with inItem | last
    · exact inItems item listed step inItem
    · rw [List.mem_singleton.1 last]
      exact glue (.op (oneByOne _ rfl))

private theorem exists_list_eq (key : Option MemoKey) :
    ∃ before after, protocol.list items key = before ++ .remember key :: after ∧
      (∀ step ∈ before, Glue protocol step) ∧ ∀ step ∈ after, allowed step := by
  refine ⟨if protocol.version = 0 then [.op .mark, .op .list] else [.op .emptyList],
    protocol.additions (some .append) .appends (items.map (Step.split :: ·)),
    by simp [list], ?_, ?_⟩
  · split
    · simp only [List.forall_mem_cons]
      exact ⟨.op protocol.mark_plain, .op (.bare (Nat.zero_le _) rfl trivial rfl rfl), by simp⟩
    · rename_i binary
      simp only [List.forall_mem_cons]
      exact ⟨.op (.bare (Nat.pos_of_ne_zero binary) rfl trivial rfl rfl), by simp⟩
  · apply allowed_additions glue
    · intro item listed step inItem
      rcases List.mem_map.1 listed with ⟨inner, inside, rfl⟩
      rcases List.mem_cons.1 inItem with rfl | inItem
      · exact glue .split
      · exact inItems inner inside step inItem
    · intro opcode same
      cases same
      exact .bare (Nat.zero_le _) rfl trivial rfl rfl
    · intro given
      rcases given with binary | none
      · exact .bare (Nat.pos_of_ne_zero binary) rfl trivial rfl rfl
      · cases none

private theorem allowed_list : ∀ step ∈ protocol.list items none, allowed step := by
  rcases exists_list_eq glue inItems none with ⟨before, after, equal, glueBefore, allowedAfter⟩
  rw [equal]
  simp only [List.forall_mem_append, List.forall_mem_cons]
  exact ⟨fun step member => glue (glueBefore step member), glue .fresh, allowedAfter⟩

end Allowed

/-! ## Values made by calls -/

/-- A value without nodes within gets its slot at the end. -/
def StoredAtEnd (protocol : Protocol) (key : Option MemoKey) (steps : List Step) : Prop :=
  ∃ before, steps = before ++ [.remember key] ∧ ∀ step ∈ before, Glue protocol step

theorem storedAtEnd_call {callable : Callable} {items : List (List Step)}
    (inItems : ∀ item ∈ items, ∀ step ∈ item, Glue protocol step) (key : Option MemoKey) :
    StoredAtEnd protocol key (protocol.call callable items key) :=
  exists_call_eq id inItems callable key

theorem StoredAtEnd.glue {steps : List Step} (stored : StoredAtEnd protocol none steps) :
    ∀ step ∈ steps, Glue protocol step := by
  rcases stored with ⟨before, rfl, glue⟩
  simp only [List.forall_mem_append, List.forall_mem_cons]
  exact ⟨glue, .fresh, by simp⟩

private theorem storedAtEnd_single {opcode : Opcode} (plain : opcode.Plain protocol)
    (key : Option MemoKey) : StoredAtEnd protocol key [.op opcode, .remember key] :=
  ⟨[.op opcode], rfl, by simpa using Glue.op plain⟩

theorem storedAtEnd_bytes (payload : Bytes) (key : Option MemoKey) :
    StoredAtEnd protocol key (protocol.bytes payload key) := by
  rw [bytes]
  split
  · exact storedAtEnd_single (protocol.bytesOpcode_plain payload (by assumption)) key
  · split
    · exact storedAtEnd_call (by simp) key
    · apply storedAtEnd_call
      simp only [List.forall_mem_cons]
      exact ⟨glue_freshText _, ⟨.sharedText _, by simp⟩, by simp⟩

private theorem storedAtEnd_byteArray (payload : Bytes) (key : Option MemoKey) :
    StoredAtEnd protocol key (protocol.byteArray payload key) := by
  rw [byteArray]
  split
  · exact storedAtEnd_single (protocol.byteArray8_plain payload (by assumption)) key
  · apply storedAtEnd_call
    split
    · simp
    · simp only [List.forall_mem_cons]
      exact ⟨(storedAtEnd_bytes payload none).glue, by simp⟩

theorem glue_arrayItems (value : TypedArray) :
    ∀ item ∈ protocol.arrayItems value, ∀ step ∈ item, Glue protocol step := by
  intro item member
  cases value with
  | text characters =>
      rcases List.mem_map.1 member with ⟨character, -, rfl⟩
      exact glue_freshText _
  | integers code words =>
      rw [arrayItems_integers] at member
      rcases List.mem_map.1 member with ⟨word, -, rfl⟩
      exact glue_int _
  | singles items =>
      rcases List.mem_map.1 member with ⟨item, -, rfl⟩
      exact glue_float _
  | doubles items =>
      rcases List.mem_map.1 member with ⟨item, -, rfl⟩
      exact glue_float _

private theorem storedAtEnd_array (value : TypedArray) (key : Option MemoKey) :
    StoredAtEnd protocol key (protocol.array value key) := by
  rw [array_eq_call]
  split
  · apply storedAtEnd_call
    simp only [List.forall_mem_cons]
    exact ⟨⟨.callable _, by simp⟩, glue_freshText _, glue_int _,
      (storedAtEnd_bytes value.packed none).glue, by simp⟩
  · apply storedAtEnd_call
    simp only [List.forall_mem_cons]
    exact ⟨glue_freshText _, allowed_list id (glue_arrayItems value), by simp⟩

/-! ## Shapes of plans -/

/-- A step of a plan that does not take a slot with the key of the node itself. -/
inductive Inner (protocol : Protocol) (children : List NodeId) : Step → Prop
  | glue {step : Step} : Glue protocol step → Inner protocol children step
  | node {child : NodeId} : child ∈ children → Inner protocol children (.node child)

/-- Sets below protocol 4 are made of a list. -/
def MadeOfList (protocol : Protocol) (node : Node) : Prop :=
  protocol.version < 4 ∧ ∃ items, node = .set items

/-- Where the plan of a node takes the slot of the node: not at all, before the nodes within are
written, or after them. A tuple may find there that it has one already; a set below protocol 4
takes a slot in any case. -/
inductive Shape (protocol : Protocol) (id : NodeId) (node : Node) : List Step → Prop
  | scalar {steps : List Step} : node.takesSlot = false → (∀ step ∈ steps, Glue protocol step) →
      Shape protocol id node steps
  | storedFirst {before after : List Step} : node.takesSlot → ¬MadeOfList protocol node →
      (∀ step ∈ before, Glue protocol step) → (∀ step ∈ after, Inner protocol node.children step) →
      Shape protocol id node (before ++ .remember (some (.node id)) :: after)
  | oldSet {before : List Step} : MadeOfList protocol node →
      (∀ step ∈ before, Inner protocol node.children step) →
      Shape protocol id node (before ++ [.remember (some (.node id))])
  | tuple {before : List Step} {items : List NodeId} : items ≠ [] → node = .tuple items →
      (∀ step ∈ before, Inner protocol node.children step) →
      Shape protocol id node (before ++ [.endTuple id items.length])

theorem StoredAtEnd.shape {id : NodeId} {node : Node} {steps : List Step}
    (takesSlot : node.takesSlot) (noList : ¬MadeOfList protocol node)
    (stored : StoredAtEnd protocol (some (.node id)) steps) : Shape protocol id node steps := by
  rcases stored with ⟨before, rfl, glue⟩
  exact .storedFirst takesSlot noList glue (by simp)

theorem inner_items (children : List NodeId) :
    ∀ item ∈ children.map fun child => [Step.node child],
      ∀ step ∈ item, Inner protocol children step := by
  intro item member step inItem
  rcases List.mem_map.1 member with ⟨child, listed, rfl⟩
  rw [List.mem_singleton.1 inItem]
  exact .node listed

private theorem shape_list (id : NodeId) (items : List NodeId) :
    Shape protocol id (.list items)
      (protocol.list (items.map fun item => [.node item]) (some (.node id))) := by
  have inItems : ∀ item ∈ items.map fun item => [Step.node item],
      ∀ step ∈ item, Inner protocol items step := inner_items items
  rcases exists_list_eq .glue inItems (some (.node id)) with ⟨before, after, equal, glue, inner⟩
  rw [equal]
  exact .storedFirst rfl (by simp [MadeOfList]) glue inner

private theorem shape_set (id : NodeId) (items : List NodeId) :
    Shape protocol id (.set items) (protocol.set items (some (.node id))) := by
  rw [set]
  split
  · rename_i recent
    have addItems : Opcode.addItems.Plain protocol := .bare recent rfl trivial rfl rfl
    have emptySet : Opcode.emptySet.Plain protocol := .bare recent rfl trivial rfl rfl
    have glue : ∀ step ∈ [Step.op .emptySet], Glue protocol step := by
      simpa using Glue.op emptySet
    exact .storedFirst rfl (fun old => Nat.not_lt.2 recent old.1) glue
      (allowed_additions .glue (inner_items items) (by simp) fun _ => addItems)
  · rename_i old
    have inItems : ∀ item ∈ [protocol.list (items.map fun item => [Step.node item]) none],
        ∀ step ∈ item, Inner protocol items step := by
      simp only [List.forall_mem_cons]
      exact ⟨allowed_list .glue (inner_items items), by simp⟩
    rcases exists_call_eq .glue inItems .set (some (.node id)) with ⟨before, equal, inner⟩
    rw [equal]
    exact .oldSet ⟨Nat.lt_of_not_le old, items, rfl⟩ inner

private theorem shape_dict (id : NodeId) (entries : List (NodeId × NodeId)) :
    Shape protocol id (.dict entries) (protocol.dict entries (some (.node id))) := by
  rw [dict]
  rw [List.append_assoc]
  have glue : ∀ step ∈ (if protocol.version = 0 then [Step.op .mark, .op .dict]
      else [.op .emptyDict]), Glue protocol step := by
    split
    · simp only [List.forall_mem_cons]
      exact ⟨.op protocol.mark_plain, .op (.bare (Nat.zero_le _) rfl trivial rfl rfl), by simp⟩
    · rename_i binary
      simp only [List.forall_mem_cons]
      exact ⟨.op (.bare (Nat.pos_of_ne_zero binary) rfl trivial rfl rfl), by simp⟩
  refine .storedFirst rfl (by simp [MadeOfList]) glue (allowed_additions .glue ?_ ?_ ?_)
  · intro item listed
    rcases List.mem_map.1 listed with ⟨entry, member, rfl⟩
    have first : entry.1 ∈ (Node.dict entries).children :=
      List.mem_flatMap.2 ⟨entry, member, by simp⟩
    have second : entry.2 ∈ (Node.dict entries).children :=
      List.mem_flatMap.2 ⟨entry, member, by simp⟩
    simp only [List.forall_mem_cons]
    exact ⟨.node first, .node second, by simp⟩
  · intro opcode same
    cases same
    exact .bare (Nat.zero_le _) rfl trivial rfl rfl
  · intro given
    rcases given with binary | none
    · exact .bare (Nat.pos_of_ne_zero binary) rfl trivial rfl rfl
    · cases none

/-- Every plan has one of these shapes. -/
theorem shape_of_plan {id : NodeId} {node : Node} {steps : List Step}
    (plan : protocol.plan id node = .ok steps) : Shape protocol id node steps := by
  have freshBytes (payload : Bytes) :
      ∀ item ∈ [protocol.bytes payload none], ∀ step ∈ item, Glue protocol step := by
    simpa using (storedAtEnd_bytes payload none).glue
  cases hasPlan_of_plan plan with
  | none => exact .scalar rfl (by simpa using .op (.bare (Nat.zero_le _) rfl trivial rfl rfl))
  | bool value => exact .scalar rfl (by simpa using .op (protocol.boolOpcode_plain value))
  | int value => exact .scalar rfl (glue_int _)
  | bigInt read => exact .scalar rfl (glue_int _)
  | float value => exact .scalar rfl (glue_float _)
  | text value =>
      exact (storedAtEnd_single (protocol.textOpcode_plain value) _).shape rfl
        (by simp [MadeOfList])
  | bytes value => exact (storedAtEnd_bytes value _).shape rfl (by simp [MadeOfList])
  | byteArray value => exact (storedAtEnd_byteArray value _).shape rfl (by simp [MadeOfList])
  | complex re im =>
      refine (storedAtEnd_call ?_ _).shape rfl (by simp [MadeOfList])
      simp only [List.forall_mem_cons]
      exact ⟨glue_float _, glue_float _, by simp⟩
  | moment value | date value | time value =>
      exact (storedAtEnd_call (freshBytes _) _).shape rfl (by simp [MadeOfList])
  | duration counted =>
      refine (storedAtEnd_call ?_ _).shape rfl (by simp [MadeOfList])
      simp only [List.forall_mem_cons]
      exact ⟨glue_int _, glue_int _, glue_int _, by simp⟩
  | decimal canonical =>
      refine (storedAtEnd_call ?_ _).shape rfl (by simp [MadeOfList])
      simp only [List.forall_mem_cons]
      exact ⟨glue_freshText _, by simp⟩
  | array value => exact (storedAtEnd_array value _).shape rfl (by simp [MadeOfList])
  | emptyTuple => exact .scalar rfl glue_emptyTuple
  | tuple nonempty => exact .tuple nonempty rfl (allowed_tupleItems .glue (inner_items _))
  | list items => exact shape_list id items
  | set items => exact shape_set id items
  | dict entries => exact shape_dict id entries

/-- The steps that may stand in the plan of a node. -/
inductive Planned (protocol : Protocol) (id : NodeId) (node : Node) : Step → Prop
  | inner {step : Step} : Inner protocol node.children step → Planned protocol id node step
  | own : Planned protocol id node (.remember (some (.node id)))
  | endTuple (count : Nat) : Planned protocol id node (.endTuple id count)

theorem planned_of_mem_plan {id : NodeId} {node : Node} {steps : List Step}
    (plan : protocol.plan id node = .ok steps) : ∀ step ∈ steps, Planned protocol id node step := by
  have shape := shape_of_plan plan
  cases shape with
  | scalar _ glue => exact fun step member => .inner (.glue (glue step member))
  | storedFirst _ _ glue inner =>
      simp only [List.forall_mem_append, List.forall_mem_cons]
      exact ⟨fun step member => .inner (.glue (glue step member)), .own,
        fun step member => .inner (inner step member)⟩
  | oldSet _ inner =>
      simp only [List.forall_mem_append, List.forall_mem_cons]
      exact ⟨fun step member => .inner (inner step member), .own, by simp⟩
  | tuple _ _ inner =>
      simp only [List.forall_mem_append, List.forall_mem_cons]
      exact ⟨fun step member => .inner (inner step member), .endTuple _, by simp⟩

/-! ## Nodes within -/

private theorem mem_additions {single : Option Opcode} {several : Opcode} {items : List (List Step)}
    {item : List Step} {step : Step} (listed : item ∈ items) (inItem : step ∈ item) :
    step ∈ protocol.additions single several items := by
  rcases protocol.inBatches_or_oneByOne single with inBatches | ⟨single, oldest, rfl⟩
  · rw [additions_inBatches inBatches]
    rw [← flatten_batches items] at listed
    rcases List.mem_flatten.1 listed with ⟨batch, inBatches, inBatch⟩
    refine List.mem_flatMap.2 ⟨batch, inBatches, ?_⟩
    unfold batchSteps
    split
    · rw [List.mem_singleton.1 inBatch] at inItem
      exact List.mem_append_left _ inItem
    · exact List.mem_cons_of_mem _
        (List.mem_append_left _ (List.mem_flatten.2 ⟨item, inBatch, inItem⟩))
  · rw [additions_oneByOne oldest]
    exact List.mem_flatMap.2 ⟨item, listed, List.mem_append_left _ inItem⟩

private theorem mem_tupleItems {items : List (List Step)} {item : List Step} {step : Step}
    (listed : item ∈ items) (inItem : step ∈ item) : step ∈ protocol.tupleItems items :=
  List.mem_append_right _ (List.mem_flatMap.2 ⟨item, listed, List.mem_cons_of_mem _ inItem⟩)

private theorem mem_list {items : List (List Step)} {item : List Step} {step : Step}
    (listed : item ∈ items) (inItem : step ∈ item) (key : Option MemoKey) :
    step ∈ protocol.list items key :=
  List.mem_append_right _
    (mem_additions (List.mem_map.2 ⟨item, listed, rfl⟩) (List.mem_cons_of_mem _ inItem))

theorem node_mem_plan {id : NodeId} {node : Node} {steps : List Step}
    (plan : protocol.plan id node = .ok steps) {child : NodeId} (inside : child ∈ node.children) :
    .node child ∈ steps := by
  have inItem : Step.node child ∈ [Step.node child] := List.mem_singleton.2 rfl
  cases hasPlan_of_plan plan with
  | emptyTuple => cases inside
  | tuple nonempty =>
      exact List.mem_append_left _ (mem_tupleItems (List.mem_map.2 ⟨child, inside, rfl⟩) inItem)
  | list items => exact mem_list (List.mem_map.2 ⟨child, inside, rfl⟩) inItem _
  | set items =>
      have listed : [Step.node child] ∈ items.map fun item => [Step.node item] :=
        List.mem_map.2 ⟨child, inside, rfl⟩
      rw [set]
      split
      · exact List.mem_append_right _ (mem_additions listed inItem)
      · have inArguments : Step.node child ∈ protocol.arguments
            [protocol.list (items.map fun item => [.node item]) none] :=
          List.mem_append_left _
            (mem_tupleItems (List.mem_singleton.2 rfl) (mem_list listed inItem none))
        exact List.mem_cons_of_mem _ (List.mem_append_left _ inArguments)
  | dict entries =>
      rcases List.mem_flatMap.1 inside with ⟨entry, member, inEntry⟩
      refine List.mem_append_right _
        (mem_additions (List.mem_map.2 ⟨entry, member, rfl⟩) (?_ : _ ∈ [_, _]))
      simpa using inEntry
  | _ => cases inside

end Protocol

end PickleTrial
