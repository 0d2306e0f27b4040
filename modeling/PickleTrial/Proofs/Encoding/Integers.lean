import Mathlib.Data.ENat.Basic
import PickleTrial.Proofs.Decoding.Opcodes
import PickleTrial.Proofs.Encoding.Termination
import PickleTrial.Proofs.Number.Literal

/-! Integers in streams. A node of 64 bits, a node with a literal and, below protocol 3, an item of
an array are written by one opcode if they are one integer. It is read as that integer, and it is
the narrowest that the protocol has for it. -/

namespace PickleTrial

/-! ## The opcodes of integers -/

/-- What an opcode holds an integer in: a word, a run of bytes behind its length, or a line. -/
inductive IntegerKind
  | oneByte
  | twoBytes
  | fourBytes
  | shortRun
  | longRun
  | line
  | longLine
deriving DecidableEq

namespace IntegerKind

def since : IntegerKind → Nat
  | line | longLine => 0
  | oneByte | twoBytes | fourBytes => 1
  | shortRun | longRun => 2

/-- The bytes that an integer may take. A line has room for every integer. -/
def capacity : IntegerKind → ℕ∞
  | oneByte => 1
  | twoBytes => 2
  | fourBytes => 4
  | shortRun => 0xff
  | longRun => 0xffffffff
  | line | longLine => ⊤

def Fits (value : Int) : IntegerKind → Prop
  | oneByte => 0 ≤ value ∧ value ≤ 255
  | twoBytes => 0 ≤ value ∧ value ≤ 65535
  | fourBytes => Integer.FitsInt32 value
  | shortRun => (Integer.twosComplement value).length ≤ 255
  | longRun | line | longLine => True

/-- Where a protocol writes an integer in this way. -/
def Serves (protocol : Protocol) (value : Int) : IntegerKind → Prop
  | oneByte => 1 ≤ protocol.version ∧ 0 ≤ value ∧ value ≤ 255
  | twoBytes => 1 ≤ protocol.version ∧ 256 ≤ value ∧ value ≤ 65535
  | fourBytes =>
      1 ≤ protocol.version ∧ Integer.FitsInt32 value ∧ ¬(0 ≤ value ∧ value ≤ 65535)
  | shortRun =>
      2 ≤ protocol.version ∧ ¬Integer.FitsInt32 value ∧
        (Integer.twosComplement value).length ≤ 255
  | longRun =>
      2 ≤ protocol.version ∧ ¬Integer.FitsInt32 value ∧
        255 < (Integer.twosComplement value).length
  | line => protocol.version = 0 ∧ Integer.FitsInt32 value
  | longLine => protocol.version < 2 ∧ ¬Integer.FitsInt32 value

variable {protocol : Protocol} {value : Int} {kind other : IntegerKind}

private theorem Serves.unique (serves : kind.Serves protocol value)
    (otherServes : other.Serves protocol value) : kind = other := by
  simp only [Serves, Integer.FitsInt32] at serves otherServes
  cases kind <;> cases other <;> simp only [reduceCtorEq] <;> omega

private theorem Serves.capacity_le (serves : kind.Serves protocol value)
    (offered : other.since ≤ protocol.version) (fits : other.Fits value) :
    kind.capacity ≤ other.capacity := by
  cases kind <;> cases other <;>
    simp only [Serves, Fits, since, Integer.FitsInt32] at serves fits offered <;> first
      | omega
      | exact le_top
      | decide

end IntegerKind

namespace Opcode

def integerKind? : Opcode → Option IntegerKind
  | binInt1 _ => some .oneByte
  | binInt2 _ => some .twoBytes
  | binInt _ => some .fourBytes
  | long1 _ => some .shortRun
  | long4 _ => some .longRun
  | int _ => some .line
  | long _ => some .longLine
  | _ => Option.none

def capacity (opcode : Opcode) : ℕ∞ :=
  opcode.integerKind?.elim ⊤ IntegerKind.capacity

private theorem since_of_integerKind? {opcode : Opcode} {kind : IntegerKind}
    (known : opcode.integerKind? = some kind) : opcode.since = kind.since := by
  cases opcode with
  | binInt1 | binInt2 | binInt | long1 | long4 | int | long =>
      cases known
      rfl
  | _ => cases known

private theorem fits_of_scalar? {opcode : Opcode} {kind : IntegerKind} {value : Int}
    (known : opcode.integerKind? = some kind) (readable : opcode.Readable)
    (holds : Machine.scalar? opcode = some (.int value)) : kind.Fits value := by
  have fits := readable.fits
  cases opcode with
  | binInt1 word =>
      cases known
      cases holds
      have bound := word.isLt
      exact ⟨by omega, by omega⟩
  | binInt2 word =>
      cases known
      cases holds
      have bound := word.isLt
      exact ⟨by omega, by omega⟩
  | binInt word =>
      cases known
      cases holds
      exact ⟨BitVec.le_toInt word, BitVec.toInt_lt⟩
  | long1 payload =>
      cases known
      cases holds
      have shortest : (Integer.twosComplement (Integer.ofTwosComplement payload)).length ≤
          payload.length := Integer.length_twosComplement_le rfl
      exact Nat.le_of_lt_succ (Nat.lt_of_le_of_lt shortest fits)
  | long4 | int | long =>
      cases known
      trivial
  | _ => cases known

end Opcode

namespace Protocol

variable (protocol : Protocol)

private theorem exists_integerKind (value : Int) :
    ∃ kind, (protocol.intOpcode value).integerKind? = some kind ∧ kind.Serves protocol value := by
  simp only [intOpcode, longOpcode, payloadOpcode]
  split
  · rename_i fits
    split
    · exact ⟨.line, rfl, ‹_›, fits⟩
    · split
      · exact ⟨.oneByte, rfl, by omega, ‹_›⟩
      · split
        · exact ⟨.twoBytes, rfl, by omega, by omega, by omega⟩
        · exact ⟨.fourBytes, rfl, by omega, fits, ‹_›⟩
  · rename_i large
    split
    · split
      · exact ⟨.shortRun, rfl, ‹_›, large, ‹_›⟩
      · exact ⟨.longRun, rfl, ‹_›, large, by omega⟩
    · exact ⟨.longLine, rfl, by omega, large⟩

private theorem integerKind?_intOpcode_iff {value : Int} {kind : IntegerKind} :
    (protocol.intOpcode value).integerKind? = some kind ↔ kind.Serves protocol value := by
  rcases protocol.exists_integerKind value with ⟨own, known, serves⟩
  rw [known, Option.some.injEq]
  exact ⟨fun same => same ▸ serves, serves.unique⟩

/-- No opcode of the protocol that is read as an integer has less room than the one by which it is
written. -/
private theorem capacity_intOpcode_le {value : Int} {other : Opcode}
    (offered : other.since ≤ protocol.version) (readable : other.Readable)
    (holds : Machine.scalar? other = some (.int value)) :
    (protocol.intOpcode value).capacity ≤ other.capacity := by
  rcases protocol.exists_integerKind value with ⟨kind, known, serves⟩
  rw [Opcode.capacity, known, Opcode.capacity]
  cases otherKnown : other.integerKind? with
  | none => exact le_top
  | some otherKind =>
      rw [Opcode.since_of_integerKind? otherKnown] at offered
      exact serves.capacity_le offered (Opcode.fits_of_scalar? otherKnown readable holds)

private theorem payload_eq_of_long4 {value : Int} {payload : Bytes}
    (written : protocol.intOpcode value = .long4 payload) :
    payload = Integer.twosComplement value := by
  simp only [intOpcode, longOpcode, payloadOpcode] at written
  repeat' split at written
  all_goals cases written
  rfl

/-- Whatever follows it, the opcode of an integer is read back, if the integer has a form at all
from protocol 2 on. -/
private theorem readable_intOpcode {value : Int}
    (fits : (Integer.twosComplement value).length < 2 ^ 31) :
    (protocol.intOpcode value).Readable where
  lines := (protocol.intOpcode_plain value).lines
  fits := by
    apply (protocol.intOpcode_plain value).fits
    simp only [intOpcode, longOpcode, payloadOpcode]
    repeat' split
    all_goals simp only [Opcode.WithinLimits]
    all_goals omega

end Protocol

/-! ## Where integers stand -/

/-- The nodes that are an integer. -/
inductive Node.IsInteger (value : Int) : Node → Prop
  | int {number : Int64} (same : number.toInt = value) : IsInteger value (.int number)
  | bigInt {text : String} (literal : Integer.Literal) (spelled : literal.text = text.toList)
      (same : literal.value = value) : IsInteger value (.bigInt text)

private theorem Protocol.plan_of_isInteger (protocol : Protocol) {value : Int} {node : Node}
    (isInteger : node.IsInteger value) (id : NodeId) :
    protocol.plan id node = .ok (protocol.int value) := by
  cases isInteger with
  | int same => rw [plan, word_eq, same]
  | bigInt literal spelled same =>
      rw [plan_bigInt, Integer.ofLiteral?_eq_some_iff.2 ⟨literal, spelled, same⟩]

/-- A literal that is not refused is one of the integer that is written for it. -/
private theorem Protocol.isInteger_of_plan_bigInt {protocol : Protocol} {value : Int}
    {text : String}
    {id : NodeId} (plan : protocol.plan id (.bigInt text) = .ok (protocol.int value)) :
    (Node.bigInt text).IsInteger value := by
  rw [Protocol.plan_bigInt] at plan
  cases read : Integer.ofLiteral? text.toList with
  | none =>
      rw [read] at plan
      cases plan
  | some number =>
      simp only [read, Except.ok.injEq, int, List.cons.injEq, Step.op.injEq, and_true] at plan
      have same := Machine.scalar?_intOpcode protocol number
      rw [plan, Machine.scalar?_intOpcode] at same
      cases same
      rcases Integer.ofLiteral?_eq_some_iff.1 read with ⟨literal, spelled, same⟩
      exact .bigInt literal spelled same

private theorem Protocol.plan_array_of_lt (protocol : Protocol) (old : protocol.version < 3)
    (id : NodeId) (code : IntegerCode) (before after : List (BitVec (8 * code.width)))
    (word : BitVec (8 * code.width)) :
    protocol.plan id (.array (.integers code (before ++ word :: after))) =
      .ok (protocol.call .array
        [protocol.freshText (String.singleton code.letter),
          protocol.list (protocol.arrayItems (.integers code before) ++
            protocol.int (code.value word) :: protocol.arrayItems (.integers code after)) none]
        (some (.node id))) := by
  rw [plan, array, if_neg (Nat.not_le.2 old)]
  simp only [arrayItems_integers, List.map_append, List.map_cons]
  rfl

/-! ## Whole streams -/

namespace Trace

variable {graph copy : Graph} {protocol : Protocol}

/-- Where every node begins in the same way, every node is written in the same way. -/
private theorem writeNode_congr
    (same : ∀ id trace, enter graph protocol id trace = enter copy protocol id trace)
    (depth : Nat) : writeNode graph protocol depth = writeNode copy protocol depth := by
  induction depth with
  | zero => rfl
  | succ depth induction =>
      funext id trace
      rw [writeNode_succ, writeNode_succ, same, induction]

end Trace

namespace Graph

/-- Another node at a position. -/
def put (graph : Graph) (id : NodeId) (node : Node) : Graph :=
  ⟨graph.nodes.setIfInBounds id node⟩

private theorem size_put (graph : Graph) (id : NodeId) (node : Node) :
    (graph.put id node).size = graph.size :=
  Array.size_setIfInBounds

section Exchange

variable {graph : Graph} {protocol : Protocol} {first second : Node} {place : NodeId}

private theorem enter_put (same : protocol.plan place first = protocol.plan place second)
    (id : NodeId) (trace : Trace) :
    Trace.enter (graph.put place first) protocol id trace =
      Trace.enter (graph.put place second) protocol id trace := by
  simp only [Trace.enter, put, node?, Array.getElem?_setIfInBounds]
  by_cases here : place = id
  · subst here
    by_cases within : place < graph.nodes.size
    · simp only [if_true, within]
      cases trace.memo.find? (.node place) with
      | none => simp only [same]
      | some slot => rfl
    · simp only [if_true, within, if_false]
  · simp only [here, if_false]

/-- Nodes with one plan can stand for each other. -/
theorem pickle_put (same : protocol.plan place first = protocol.plan place second)
    (root : NodeId) :
    (graph.put place first).pickle protocol.version root =
      (graph.put place second).pickle protocol.version root := by
  have entered : ∀ id trace, Trace.enter (graph.put place first) protocol id trace =
      Trace.enter (graph.put place second) protocol id trace := enter_put same
  have written := Trace.writeNode_congr entered
  rw [pickle_eq, pickle_eq, trace, trace, depthBound, depthBound, size_put, size_put, written]

end Exchange

/-- The stream of a value that is one opcode. -/
private theorem pickle_of_plan_op {graph : Graph} {protocol : Protocol} {root : NodeId}
    {node : Node} {opcode : Opcode} (present : graph.node? root = some node)
    (plan : protocol.plan root node = .ok [.op opcode]) :
    graph.pickle protocol.version root =
      .ok (header protocol ++ Piece.bytes protocol [opcode, .stop]) := by
  rcases exists_trace_eq_of_plan present plan with ⟨depth, written⟩
  simp only [Trace.performAll, Trace.perform] at written
  rw [pickle_version, stream, encode, written]
  simp [delivered, Trace.start, Trace.emit, Trace.record, Trace.events, Pieces.ofEvents,
    Pieces.add, Pieces.close, Pieces.toList]

end Graph

/-! ## One opcode for an integer -/

/-- By what a protocol writes an integer, in whatever form the integer is given. -/
structure WritesInteger (protocol : Protocol) (value : Int) (opcode : Opcode) : Prop where
  node : ∀ {node : Node}, node.IsInteger value → ∀ id, protocol.plan id node = .ok [.op opcode]
  literal : ∀ {text id}, protocol.plan id (.bigInt text) = .ok [.op opcode] →
    (Node.bigInt text).IsInteger value
  /-- Below protocol 3 an array is written with a list of its items. -/
  item : protocol.version < 3 → ∀ (id : NodeId) (code : IntegerCode)
    (before after : List (BitVec (8 * code.width))) (word : BitVec (8 * code.width)),
    code.value word = value →
      protocol.plan id (.array (.integers code (before ++ word :: after))) =
        .ok (protocol.call .array
          [protocol.freshText (String.singleton code.letter),
            protocol.list (protocol.arrayItems (.integers code before) ++
              [.op opcode] :: protocol.arrayItems (.integers code after)) none]
          (some (.node id)))
  /-- By itself an integer is the header, the opcode and the stop. -/
  alone : ∀ {graph : Graph} {root : NodeId} {node : Node}, graph.node? root = some node →
    node.IsInteger value →
      graph.pickle protocol.version root =
        .ok (Graph.header protocol ++ Piece.bytes protocol [opcode, .stop])
  /-- Wherever an integer stands, another node that is the same integer can stand there. -/
  exchange : ∀ {first second : Node}, first.IsInteger value → second.IsInteger value →
    ∀ (graph : Graph) (place root : NodeId),
      (graph.put place first).pickle protocol.version root =
        (graph.put place second).pickle protocol.version root
  reads : ∀ rest, Opcode.read? (opcode.bytes ++ rest) = some (opcode, rest)
  /-- The length of a run is that which its four bytes tell with a sign. -/
  signed : ∀ payload, opcode = .long4 payload →
    (BitVec.ofNat 32 payload.length).toInt = payload.length
  holds : Machine.scalar? opcode = some (.int value)
  kind : ∀ kind, opcode.integerKind? = some kind ↔ kind.Serves protocol value
  narrowest : ∀ {other : Opcode}, other.since ≤ protocol.version → other.Readable →
    Machine.scalar? other = some (.int value) → opcode.capacity ≤ other.capacity

/-- There is one opcode for an integer. -/
theorem exists_writesInteger (protocol : Protocol) {value : Int}
    (fits : (Integer.twosComplement value).length < 2 ^ 31) :
    ∃ opcode, WritesInteger protocol value opcode :=
  ⟨protocol.intOpcode value, {
    node := fun isInteger id => protocol.plan_of_isInteger isInteger id
    literal := Protocol.isInteger_of_plan_bigInt
    item := fun old id code before after word same =>
      same ▸ protocol.plan_array_of_lt old id code before after word
    alone := fun present isInteger =>
      Graph.pickle_of_plan_op present (protocol.plan_of_isInteger isInteger _)
    exchange := fun first second graph place root =>
      Graph.pickle_put ((protocol.plan_of_isInteger first place).trans
        (protocol.plan_of_isInteger second place).symm) root
    reads := Opcode.read?_bytes (protocol.readable_intOpcode fits)
    signed := fun payload written => by
      rw [protocol.payload_eq_of_long4 written, BitVec.toInt_ofNat']
      exact Int.bmod_eq_of_le (by omega) (by omega)
    holds := Machine.scalar?_intOpcode protocol value
    kind := fun _ => protocol.integerKind?_intOpcode_iff
    narrowest := protocol.capacity_intOpcode_le }⟩

/-- The smallest integer beyond 64 bits, by a literal with a sign and a zero too many. -/
theorem exists_writesInteger_beyond_int64 :
    (Integer.twosComplement 9223372036854775808).length < 2 ^ 31 ∧
      ∃ opcode, WritesInteger ⟨2, by decide⟩ 9223372036854775808 opcode ∧
        (Node.bigInt "+09223372036854775808").IsInteger 9223372036854775808 ∧
        Graph.pickle ⟨#[.bigInt "+09223372036854775808"]⟩ 2 0 =
          .ok (Graph.header ⟨2, by decide⟩ ++ Piece.bytes ⟨2, by decide⟩ [opcode, .stop]) := by
  have fits : (Integer.twosComplement 9223372036854775808).length < 2 ^ 31 := by decide
  have isInteger : (Node.bigInt "+09223372036854775808").IsInteger 9223372036854775808 :=
    .bigInt ⟨.plus, "09223372036854775808".toList, by decide, List.all_eq_true.1 (by decide)⟩
      rfl rfl
  rcases exists_writesInteger ⟨2, by decide⟩ fits with ⟨opcode, writes⟩
  exact ⟨fits, opcode, writes, isInteger, writes.alone rfl isInteger⟩

end PickleTrial
