import PickleTrial.Proofs.Encoding.Success

/-! Neighbouring protocols. From protocol 2 to protocol 3 and from protocol 4 to protocol 5 few
things are written in another way: byte strings and the modules that were renamed, and byte arrays.
Of every other value two runs, one under each protocol, stay side by side: they write the same
opcodes, take the same slots of the memo and end their frames at the same places. So the streams
differ in the version that the header tells, and in nothing else. -/

namespace PickleTrial

/-- A node that protocol 3 writes as protocol 2 does. -/
def Node.isSteady : Node → Bool
  | .none | .bool _ | .int _ | .bigInt _ | .float _ | .text _ | .duration _ | .decimal _
  | .tuple _ | .list _ | .dict _ => true
  | _ => false

namespace Protocol

/-- Protocols 2 and 3, or protocols 4 and 5. -/
structure Neighbours (first second : Protocol) : Prop where
  next : second.version = first.version + 1
  even : first.version = 2 ∨ first.version = 4

namespace Neighbours

variable {first second : Protocol} (neighbours : Neighbours first second)

include neighbours

/-! ## What compares versions -/

private theorem version_eq_zero_iff : second.version = 0 ↔ first.version = 0 := by
  rcases neighbours with ⟨next, even⟩
  omega

private theorem two_le_version_iff : 2 ≤ second.version ↔ 2 ≤ first.version := by
  rcases neighbours with ⟨next, even⟩
  omega

private theorem four_le_version_iff : 4 ≤ second.version ↔ 4 ≤ first.version := by
  rcases neighbours with ⟨next, even⟩
  omega

private theorem two_le_version : 2 ≤ first.version := by
  rcases neighbours with ⟨-, even⟩
  omega

private theorem boolOpcode_eq (value : Bool) :
    second.boolOpcode value = first.boolOpcode value := by
  simp only [boolOpcode, neighbours.two_le_version_iff]

private theorem intOpcode_eq (value : Int) : second.intOpcode value = first.intOpcode value := by
  simp only [intOpcode, neighbours.version_eq_zero_iff, neighbours.two_le_version_iff]

private theorem floatOpcode_eq (value : Binary64) :
    second.floatOpcode value = first.floatOpcode value := by
  simp only [floatOpcode, neighbours.version_eq_zero_iff]

private theorem textOpcode_eq (content : String) :
    second.textOpcode content = first.textOpcode content := by
  simp only [textOpcode, neighbours.version_eq_zero_iff, neighbours.four_le_version_iff]

private theorem bytesOpcode_eq (payload : Bytes) :
    second.bytesOpcode payload = first.bytesOpcode payload := by
  simp only [bytesOpcode, neighbours.four_le_version_iff]

private theorem putOpcode_eq (slot : Nat) : second.putOpcode slot = first.putOpcode slot := by
  simp only [putOpcode, neighbours.version_eq_zero_iff, neighbours.four_le_version_iff]

private theorem getOpcode_eq (slot : Nat) : second.getOpcode slot = first.getOpcode slot := by
  simp only [getOpcode, neighbours.version_eq_zero_iff]

private theorem isShortTuple_eq (count : Nat) :
    second.isShortTuple count = first.isShortTuple count := by
  simp only [isShortTuple, neighbours.two_le_version_iff]

private theorem tupleOpcode_eq (count : Nat) :
    second.tupleOpcode count = first.tupleOpcode count := by
  simp only [tupleOpcode, neighbours.isShortTuple_eq]

private theorem dropOpcodes_eq (count : Nat) :
    second.dropOpcodes count = first.dropOpcodes count := by
  simp only [dropOpcodes, neighbours.isShortTuple_eq, neighbours.version_eq_zero_iff]

private theorem pieceBytes_eq (piece : Piece) : piece.bytes second = piece.bytes first := by
  simp only [Piece.bytes, neighbours.four_le_version_iff]

/-! ## Plans -/

private theorem tupleItems_eq (items : List (List Step)) :
    second.tupleItems items = first.tupleItems items := by
  simp only [tupleItems, neighbours.isShortTuple_eq]

private theorem emptyTuple_eq : second.emptyTuple = first.emptyTuple := by
  simp only [emptyTuple, neighbours.version_eq_zero_iff]

private theorem call_eq (callable : Callable) (items : List (List Step)) (key : Option MemoKey) :
    second.call callable items key = first.call callable items key := by
  simp only [call, arguments, neighbours.emptyTuple_eq, neighbours.tupleItems_eq,
    neighbours.tupleOpcode_eq]

private theorem additions_eq (single : Option Opcode) (several : Opcode)
    (items : List (List Step)) :
    second.additions single several items = first.additions single several items := by
  have firstBinary : first.version ≠ 0 := by
    have recent := neighbours.two_le_version
    omega
  have secondBinary : second.version ≠ 0 := mt neighbours.version_eq_zero_iff.1 firstBinary
  rw [additions_inBatches (.inl secondBinary), additions_inBatches (.inl firstBinary)]

private theorem list_eq (items : List (List Step)) (key : Option MemoKey) :
    second.list items key = first.list items key := by
  simp only [list, neighbours.version_eq_zero_iff, neighbours.additions_eq]

private theorem dict_eq (entries : List (NodeId × NodeId)) (key : Option MemoKey) :
    second.dict entries key = first.dict entries key := by
  simp only [dict, neighbours.version_eq_zero_iff, neighbours.additions_eq]

private theorem set_eq (items : List NodeId) (key : Option MemoKey) :
    second.set items key = first.set items key := by
  simp only [set, neighbours.four_le_version_iff, neighbours.additions_eq, neighbours.list_eq,
    neighbours.call_eq]

private theorem freshText_eq (content : String) :
    second.freshText content = first.freshText content := by
  simp only [freshText, neighbours.textOpcode_eq]

private theorem int_eq (value : Int) : second.int value = first.int value := by
  simp only [int, neighbours.intOpcode_eq]

private theorem float_eq (value : Binary64) : second.float value = first.float value := by
  simp only [float, neighbours.floatOpcode_eq]

private theorem word_eq (word : Int64) : second.word word = first.word word := by
  rw [Protocol.word_eq, Protocol.word_eq, neighbours.int_eq]

private theorem duration_eq (parts : Duration.Parts) (key : Option MemoKey) :
    second.duration parts key = first.duration parts key := by
  simp only [duration, neighbours.word_eq, neighbours.call_eq]

private theorem plan_eq_of_isSteady {node : Node} (steady : node.isSteady) (id : NodeId) :
    second.plan id node = first.plan id node := by
  cases node with
  | none => rfl
  | bool value => simp only [plan, neighbours.boolOpcode_eq]
  | int value => simp only [plan, neighbours.word_eq]
  | bigInt literal => simp only [plan_bigInt, neighbours.int_eq]
  | float value => simp only [plan, neighbours.float_eq]
  | text value => simp only [plan, neighbours.textOpcode_eq]
  | duration value => simp only [plan, neighbours.duration_eq]
  | decimal literal => simp only [plan, neighbours.freshText_eq, neighbours.call_eq]
  | tuple items => simp only [plan, neighbours.emptyTuple_eq, neighbours.tupleItems_eq]
  | list items => simp only [plan, neighbours.list_eq]
  | dict entries => simp only [plan, neighbours.dict_eq]
  | _ => cases steady

section Recent

variable (recent : 3 ≤ first.version)

include recent

private theorem bytes_eq (payload : Bytes) (key : Option MemoKey) :
    second.bytes payload key = first.bytes payload key := by
  have secondRecent : 3 ≤ second.version := by
    rw [neighbours.next]
    omega
  rw [bytes, bytes, if_pos recent, if_pos secondRecent, neighbours.bytesOpcode_eq]

private theorem array_eq (value : TypedArray) (key : Option MemoKey) :
    second.array value key = first.array value key := by
  have secondRecent : 3 ≤ second.version := by
    rw [neighbours.next]
    omega
  simp only [array, if_pos recent, if_pos secondRecent, neighbours.freshText_eq,
    neighbours.word_eq, neighbours.bytes_eq recent, neighbours.call_eq]

private theorem plan_eq_of_recent {node : Node} (other : ∀ payload, node ≠ .byteArray payload)
    (id : NodeId) : second.plan id node = first.plan id node := by
  by_cases steady : node.isSteady
  · exact neighbours.plan_eq_of_isSteady steady id
  · cases node with
    | bytes value => simp only [plan, neighbours.bytes_eq recent]
    | byteArray value => exact absurd rfl (other value)
    | complex re im => simp only [plan, neighbours.float_eq, neighbours.call_eq]
    | moment value => simp only [plan, neighbours.bytes_eq recent, neighbours.call_eq]
    | date value => simp only [plan, neighbours.bytes_eq recent, neighbours.call_eq]
    | time value => simp only [plan, neighbours.bytes_eq recent, neighbours.call_eq]
    | array value => simp only [plan, neighbours.array_eq recent]
    | set items => simp only [plan, neighbours.set_eq]
    | _ => exact absurd rfl steady

end Recent

end Neighbours

end Protocol

/-! ## The callables of a plan -/

/-- The callable that a step fetches. -/
def Step.callable? : Step → Option Callable
  | .callable fetched => some fetched
  | _ => none

namespace Protocol

/-- The callables that steps fetch, in order. -/
def callables (steps : List Step) : List Callable :=
  steps.filterMap Step.callable?

@[simp] theorem callables_nil : callables [] = [] := rfl

@[simp] theorem callables_cons (step : Step) (steps : List Step) :
    callables (step :: steps) = step.callable?.toList ++ callables steps := by
  rw [callables, List.filterMap_cons]
  cases step.callable? <;> rfl

@[simp] theorem callables_append (first second : List Step) :
    callables (first ++ second) = callables first ++ callables second :=
  List.filterMap_append

@[simp] theorem callables_flatMap {α : Type} (items : List α) (steps : α → List Step) :
    callables (items.flatMap steps) = items.flatMap fun item => callables (steps item) :=
  List.filterMap_flatMap

@[simp] theorem callables_flatten (items : List (List Step)) :
    callables items.flatten = items.flatMap callables := by
  rw [List.flatten_eq_flatMap, callables_flatMap]
  rfl

variable (protocol : Protocol)

private theorem callables_tupleItems (items : List (List Step)) :
    callables (protocol.tupleItems items) = items.flatMap callables := by
  rw [tupleItems, callables_append, callables_flatMap]
  split <;> simp [Step.callable?]

private theorem callables_call (callable : Callable) (items : List (List Step))
    (key : Option MemoKey) :
    callables (protocol.call callable items key) = callable :: items.flatMap callables := by
  rw [call, callables_append, callables_cons, arguments, emptyTuple]
  split
  · rename_i empty
    rw [List.isEmpty_iff.1 empty]
    split <;> simp [Step.callable?]
  · simp [Step.callable?, callables_tupleItems]

private theorem callables_batchSteps (single : Option Opcode) (several : Opcode)
    (batch : List (List Step)) :
    callables (batchSteps single several batch) = batch.flatMap callables := by
  unfold batchSteps
  split <;> simp [Step.callable?]

private theorem callables_additions (single : Option Opcode) (several : Opcode)
    (items : List (List Step)) :
    callables (protocol.additions single several items) = items.flatMap callables := by
  rcases protocol.inBatches_or_oneByOne single with inBatches | ⟨single, oldest, rfl⟩
  · rw [additions_inBatches inBatches, callables_flatMap]
    simp only [callables_batchSteps]
    conv => rhs; rw [← flatten_batches items, List.flatten_eq_flatMap, List.flatMap_assoc]
    rfl
  · rw [additions_oneByOne oldest]
    simp [Step.callable?]

private theorem callables_list (items : List (List Step)) (key : Option MemoKey) :
    callables (protocol.list items key) = items.flatMap callables := by
  rw [list, callables_append, callables_additions, List.flatMap_map]
  split <;> simp [Step.callable?]

private theorem callables_dict (entries : List (NodeId × NodeId)) (key : Option MemoKey) :
    callables (protocol.dict entries key) = [] := by
  rw [dict, callables_append, callables_additions, List.flatMap_map]
  split <;> simp [Step.callable?]

/-- A steady node is written with callables only whose modules have one name in all streams. -/
private theorem oldModule_eq_of_mem_plan {protocol : Protocol} {id : NodeId} {node : Node}
    {steps : List Step} (steady : node.isSteady) (plan : protocol.plan id node = .ok steps)
    {callable : Callable} (member : .callable callable ∈ steps) :
    callable.oldModule = callable.module := by
  have fetched : callable ∈ callables steps := List.mem_filterMap.2 ⟨_, member, rfl⟩
  have items (children : List NodeId) :
      (children.map fun item => [Step.node item]).flatMap callables = [] := by
    simp [List.flatMap_map, Step.callable?]
  cases hasPlan_of_plan plan with
  | none | bool _ | int _ | bigInt _ | float _ | text _ =>
      simp [int, float, Step.callable?] at fetched
  | duration counted =>
      have same : callable = .duration := by
        simpa [callables_call, int, Step.callable?] using fetched
      rw [same]
      rfl
  | decimal canonical =>
      have same : callable = .decimal := by
        simpa [callables_call, freshText, Step.callable?] using fetched
      rw [same]
      rfl
  | emptyTuple =>
      rw [emptyTuple] at fetched
      split at fetched <;> simp [Step.callable?] at fetched
  | tuple nonempty =>
      rw [callables_append, callables_tupleItems, items] at fetched
      simp [Step.callable?] at fetched
  | list children =>
      rw [callables_list, items] at fetched
      cases fetched
  | dict entries =>
      rw [callables_dict] at fetched
      cases fetched
  | _ => cases steady

/-! ## What is kept -/

/-- A node that the next protocol writes as this one does. -/
def Keeps (protocol : Protocol) (node : Node) : Prop :=
  node.isSteady ∨ 4 ≤ protocol.version ∧ ∀ payload, node ≠ .byteArray payload

namespace Keeps

variable {first second : Protocol} {node : Node} (kept : first.Keeps node)

include kept

private theorem plan_eq (neighbours : Neighbours first second) (id : NodeId) :
    second.plan id node = first.plan id node := by
  rcases kept with steady | ⟨recent, other⟩
  · exact neighbours.plan_eq_of_isSteady steady id
  · exact neighbours.plan_eq_of_recent (Nat.le_of_succ_le recent) other id

theorem named {id : NodeId} {steps : List Step} (plan : first.plan id node = .ok steps)
    {callable : Callable} (member : .callable callable ∈ steps) :
    4 ≤ first.version ∨ callable.oldModule = callable.module := by
  rcases kept with steady | ⟨recent, -⟩
  · exact .inr (oldModule_eq_of_mem_plan steady plan member)
  · exact .inl recent

end Keeps

end Protocol

/-! ## Two runs side by side -/

namespace Trace

open Protocol (Neighbours)

variable {first second : Protocol} (neighbours : Neighbours first second)

include neighbours

private theorem remember_eq (trace : Trace) (key : Option MemoKey) :
    trace.remember second key = trace.remember first key := by
  simp only [remember, neighbours.putOpcode_eq]

private theorem freshText_eq (trace : Trace) (content : String) :
    trace.freshText second content = trace.freshText first content := by
  simp only [freshText, neighbours.textOpcode_eq, remember_eq neighbours]

private theorem sharedText_eq (trace : Trace) (content : String) :
    trace.sharedText second content = trace.sharedText first content := by
  simp only [sharedText, fetchOr, neighbours.getOpcode_eq, neighbours.textOpcode_eq,
    remember_eq neighbours]

private theorem endTuple_eq (trace : Trace) (id : NodeId) (count : Nat) :
    trace.endTuple second id count = trace.endTuple first id count := by
  simp only [endTuple, neighbours.dropOpcodes_eq, neighbours.getOpcode_eq,
    neighbours.tupleOpcode_eq, remember_eq neighbours]

/-- The names of a callable are strings from protocol 4 on, where no module has an old name. -/
private theorem callable_eq (trace : Trace) {callable : Callable}
    (named : 4 ≤ first.version ∨ callable.oldModule = callable.module) :
    trace.callable second callable = trace.callable first callable := by
  have stacked (trace : Trace) :
      trace.stackedNames second callable = trace.stackedNames first callable := by
    simp only [stackedNames, freshText_eq neighbours, sharedText_eq neighbours]
  have lines : first.version < 4 →
      globalOpcode second callable = globalOpcode first callable := by
    intro old
    simp only [globalOpcode, named.resolve_left (Nat.not_le.2 old), ite_self]
  simp only [Trace.callable, fetchOr, neighbours.getOpcode_eq, neighbours.four_le_version_iff,
    stacked, remember_eq neighbours]
  by_cases recent : 4 ≤ first.version
  · simp only [if_pos recent]
  · simp only [if_neg recent, lines (Nat.lt_of_not_le recent)]

variable {firstWrite secondWrite : NodeId → Trace → Outcome}

/-- A step does the same under both protocols, if the nodes within come out the same and the
callable that it may fetch has the same name. -/
private theorem perform_eq {step : Step}
    (written : ∀ id, step = .node id → ∀ trace, secondWrite id trace = firstWrite id trace)
    (named : ∀ callable, step = .callable callable →
      4 ≤ first.version ∨ callable.oldModule = callable.module) (trace : Trace) :
    trace.perform second secondWrite step = trace.perform first firstWrite step := by
  cases step with
  | split => rfl
  | op opcode => rfl
  | remember key => rw [perform, perform, remember_eq neighbours]
  | sharedText content => rw [perform, perform, sharedText_eq neighbours]
  | callable callable => rw [perform, perform, callable_eq neighbours _ (named callable rfl)]
  | endTuple id count => rw [perform, perform, endTuple_eq neighbours]
  | node id => exact written id rfl trace

omit neighbours in
private theorem performAll_eq {steps : List Step}
    (same : ∀ step ∈ steps, ∀ trace : Trace,
      trace.perform second secondWrite step = trace.perform first firstWrite step)
    (trace : Trace) :
    performAll second secondWrite steps trace = performAll first firstWrite steps trace := by
  induction steps generalizing trace with
  | nil => rfl
  | cons step rest induction =>
      have parts := List.forall_mem_cons.1 same
      simp only [performAll, parts.1, induction parts.2]

section Graph

variable {graph : Graph} {root : NodeId}
  (kept : ∀ id node, graph.Reaches root id → graph.node? id = some node → first.Keeps node)

include kept

private theorem enter_eq {id : NodeId} (path : graph.Reaches root id) (trace : Trace) :
    enter graph second id trace = enter graph first id trace := by
  simp only [enter, neighbours.getOpcode_eq]
  cases trace.memo.find? (.node id) with
  | some slot => rfl
  | none =>
      cases present : graph.node? id with
      | none => rfl
      | some node => simp only [(kept id node path present).plan_eq neighbours id]

/-- Where every node that is met from the root is kept, the two runs come out the same. -/
private theorem writeNode_eq {depth : Nat} {id : NodeId} (path : graph.Reaches root id)
    (trace : Trace) :
    writeNode graph second depth id trace = writeNode graph first depth id trace := by
  induction depth generalizing id trace with
  | zero => rfl
  | succ depth induction =>
      rw [writeNode_succ, writeNode_succ, enter_eq neighbours kept path]
      cases entered : enter graph first id trace with
      | decided outcome => rfl
      | planned steps =>
          rcases enter_planned.1 entered with ⟨-, node, present, plan⟩
          -- What is within a node that is met is met too, so the induction covers it.
          refine performAll_eq (fun step member => perform_eq neighbours ?_ ?_) _
          · intro child same trace
            subst same
            have inside := Protocol.mem_children_of_plan plan member
            exact induction (path.tail ⟨node, present, inside⟩) trace
          · intro callable same
            subst same
            exact (kept id node path present).named plan member

end Graph

end Trace

/-! ## Whole values -/

namespace Graph

variable {graph : Graph} {first second : Protocol} {root : NodeId}

/-- Under two protocols a value is encoded alike: the encoding ends under both or under neither,
the same opcodes are written at the same places with the same slots taken, and what is delivered,
the frames with it, is the same but for the version in the header, whether it is a whole stream or
breaks off with an error. -/
structure EncodesAlike (graph : Graph) (root : NodeId) (first second : Protocol) : Prop where
  ends : graph.Ends second root ↔ graph.Ends first root
  trace : graph.trace second root = graph.trace first root
  delivered : ∃ body error?,
    graph.encode first root = ⟨0x80 :: UInt8.ofNat first.version :: body, error?⟩ ∧
      graph.encode second root = ⟨0x80 :: UInt8.ofNat second.version :: body, error?⟩
  streams : ∃ result : Except EncodeError Bytes,
    graph.pickle first.version root =
        result.map (fun body => 0x80 :: UInt8.ofNat first.version :: body) ∧
      graph.pickle second.version root =
        result.map fun body => 0x80 :: UInt8.ofNat second.version :: body

private theorem exists_delivered_eq (neighbours : Protocol.Neighbours first second)
    (pieces : Pieces) : ∃ body, delivered first pieces = 0x80 :: UInt8.ofNat first.version :: body ∧
      delivered second pieces = 0x80 :: UInt8.ofNat second.version :: body := by
  have secondHeader := neighbours.two_le_version_iff.2 neighbours.two_le_version
  have pieceBytes : Piece.bytes second = Piece.bytes first := funext neighbours.pieceBytes_eq
  refine ⟨pieces.toList.flatMap (Piece.bytes first), ?_, ?_⟩
  · rw [delivered, header, if_pos neighbours.two_le_version]
    rfl
  · rw [delivered, header, if_pos secondHeader, pieceBytes]
    rfl

private theorem encodesAlike_of_keeps (neighbours : Protocol.Neighbours first second)
    (kept : ∀ id node, graph.Reaches root id → graph.node? id = some node → first.Keeps node) :
    EncodesAlike graph root first second := by
  have traces : graph.trace second root = graph.trace first root :=
    Trace.writeNode_eq neighbours kept .refl _
  have encoded : ∃ body error?,
      graph.encode first root = ⟨0x80 :: UInt8.ofNat first.version :: body, error?⟩ ∧
        graph.encode second root = ⟨0x80 :: UInt8.ofNat second.version :: body, error?⟩ := by
    simp only [encode, traces]
    cases graph.trace first root with
    | complete trace =>
        rcases exists_delivered_eq neighbours (Pieces.ofEvents (trace.emit .stop).events).close with
          ⟨body, isFirst, isSecond⟩
        exact ⟨body, none, congrArg (Encoded.mk · none) isFirst,
          congrArg (Encoded.mk · none) isSecond⟩
    | failed error trace =>
        rcases exists_delivered_eq neighbours (Pieces.ofEvents trace.events) with
          ⟨body, isFirst, isSecond⟩
        exact ⟨body, some error, congrArg (Encoded.mk · (some error)) isFirst,
          congrArg (Encoded.mk · (some error)) isSecond⟩
  refine ⟨by rw [ends_iff, ends_iff, traces], traces, encoded, ?_⟩
  rcases encoded with ⟨body, error?, isFirst, isSecond⟩
  rw [pickle_version, pickle_version, stream, stream, isFirst, isSecond]
  cases error? with
  | none => exact ⟨.ok body, rfl, rfl⟩
  | some error => exact ⟨.error error, rfl, rfl⟩

/-- Protocol 5 writes byte arrays in another way than protocol 4 does, and nothing else: a value
with none among the nodes that are met is encoded alike. From protocol 2 on protocol 3 differs in
more, but a value of steady nodes is encoded alike under both. -/
theorem neighbours_encode_alike (graph : Graph) (root : NodeId) :
    ((∀ id payload, graph.Reaches root id → graph.node? id ≠ some (.byteArray payload)) →
        EncodesAlike graph root ⟨4, by decide⟩ ⟨5, by decide⟩) ∧
      ((∀ id node, graph.Reaches root id → graph.node? id = some node → node.isSteady) →
        EncodesAlike graph root ⟨2, by decide⟩ ⟨3, by decide⟩) := by
  constructor
  · intro noByteArray
    refine encodesAlike_of_keeps ⟨rfl, .inr rfl⟩ fun id node path present => ?_
    refine .inr ⟨Nat.le_refl 4, fun payload same => ?_⟩
    subst same
    exact noByteArray id payload path present
  · intro steady
    exact encodesAlike_of_keeps ⟨rfl, .inl rfl⟩ fun id node path present =>
      .inl (steady id node path present)

/-- A list within itself with everything that protocol 4 names, and one of steady nodes with a
tuple that it is within. -/
theorem neighbours_encode_alike_selfListed :
    ((∀ id payload, Reaches ⟨#[.list [0, 1, 2], .bytes [0xff], .set [1]]⟩ 0 id →
          node? ⟨#[.list [0, 1, 2], .bytes [0xff], .set [1]]⟩ id ≠ some (.byteArray payload)) ∧
        EncodesAlike ⟨#[.list [0, 1, 2], .bytes [0xff], .set [1]]⟩ 0 ⟨4, by decide⟩
          ⟨5, by decide⟩) ∧
      (∀ id node, Reaches ⟨#[.list [0, 1, 2], .tuple [0, 2], .decimal "1.50"]⟩ 0 id →
          node? ⟨#[.list [0, 1, 2], .tuple [0, 2], .decimal "1.50"]⟩ id = some node →
            node.isSteady) ∧
        EncodesAlike ⟨#[.list [0, 1, 2], .tuple [0, 2], .decimal "1.50"]⟩ 0 ⟨2, by decide⟩
          ⟨3, by decide⟩ := by
  have noByteArray : ∀ id payload,
      Reaches ⟨#[.list [0, 1, 2], .bytes [0xff], .set [1]]⟩ 0 id →
        node? ⟨#[.list [0, 1, 2], .bytes [0xff], .set [1]]⟩ id ≠ some (.byteArray payload) := by
    intro id payload _ present
    have listed := Array.mem_of_getElem? present
    simp at listed
  have steady : ∀ id node, Reaches ⟨#[.list [0, 1, 2], .tuple [0, 2], .decimal "1.50"]⟩ 0 id →
      node? ⟨#[.list [0, 1, 2], .tuple [0, 2], .decimal "1.50"]⟩ id = some node →
        node.isSteady := by
    intro id node _ present
    have listed := Array.mem_of_getElem? present
    simp only [List.mem_toArray, List.mem_cons, List.not_mem_nil, or_false] at listed
    rcases listed with rfl | rfl | rfl <;> rfl
  exact ⟨⟨noByteArray, (neighbours_encode_alike _ _).1 noByteArray⟩, steady,
    (neighbours_encode_alike _ _).2 steady⟩

end Graph

end PickleTrial
