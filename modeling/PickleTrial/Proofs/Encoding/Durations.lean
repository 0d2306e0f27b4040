import Mathlib.Data.Nat.Digits.Defs
import Mathlib.Tactic.IntervalCases
import PickleTrial.Proofs.Decoding.Leaves
import PickleTrial.Proofs.Encoding.Success
import PickleTrial.Proofs.Graph.Rendering

/-! Durations in streams and as text. Both tell the same days, seconds and microseconds, of which
only the days may be negative, and both leave off at the same durations: those with more whole
microseconds than 64 bits hold. -/

namespace PickleTrial

open Machine (Object)

private theorem Numeral.integer_natCast (value : Nat) :
    integer (value : Int) = natural value := by
  rw [integer, natural, signedDecimal, if_neg (Int.not_lt.2 (Int.natCast_nonneg value)),
    Int.natAbs_natCast]

namespace Duration

/-! ## Days, seconds and microseconds -/

/-- The whole microseconds, nearest to zero. -/
def count (duration : Duration) : Int :=
  duration.nanoseconds.tdiv 1000

namespace Parts

/-- The microseconds in all parts together. -/
def total (parts : Parts) : Int :=
  parts.days * (86400 * 1000000) + parts.seconds * 1000000 + parts.microseconds

/-- Seconds within a day, and microseconds within a second. -/
structure Normal (parts : Parts) : Prop where
  seconds : parts.seconds < 86400
  microseconds : parts.microseconds < 1000000

/-- Normal parts are one for each number of microseconds. -/
private theorem Normal.eq_of_total_eq {parts other : Parts} (normal : parts.Normal)
    (otherNormal : other.Normal) (same : parts.total = other.total) : parts = other := by
  have seconds := normal.seconds
  have microseconds := normal.microseconds
  have otherSeconds := otherNormal.seconds
  have otherMicroseconds := otherNormal.microseconds
  rw [total, total] at same
  rw [Parts.mk.injEq]
  omega

/-- The parts that are not zero, by their names. -/
def members (parts : Parts) : List (String × Int) :=
  [("days", parts.days), ("seconds", ↑parts.seconds),
    ("microseconds", ↑parts.microseconds)].filter fun member => member.2 ≠ 0

def memberText (member : String × Int) : String :=
  member.1 ++ "=" ++ Numeral.integer member.2

end Parts

private theorem total_parts (count : Int) : (parts count).total = count := by
  simp only [Parts.total, parts]
  omega

private theorem normal_parts (count : Int) : (parts count).Normal where
  seconds := by
    simp only [parts]
    omega
  microseconds := Nat.mod_lt _ (by decide)

/-- The days of a count in 64 bits are far from a billion. -/
private theorem natAbs_days_le {count : Int} (fits : Integer.FitsInt64 count) :
    (parts count).days.natAbs ≤ 106751992 := by
  have low := fits.1
  have high := fits.2
  simp only [parts]
  omega

namespace Parts

private theorem fields_eq (parts : Parts) : parts.fields = parts.members.map memberText := by
  have days : memberText ("days", parts.days) = "days=" ++ Numeral.integer parts.days := rfl
  have seconds : memberText ("seconds", ↑parts.seconds) =
      "seconds=" ++ Numeral.natural parts.seconds := by
    rw [← Numeral.integer_natCast]
    rfl
  have microseconds : memberText ("microseconds", ↑parts.microseconds) =
      "microseconds=" ++ Numeral.natural parts.microseconds := by
    rw [← Numeral.integer_natCast]
    rfl
  rw [fields, members, ← days, ← seconds, ← microseconds]
  by_cases noDays : parts.days = 0 <;> by_cases noSeconds : parts.seconds = 0 <;>
    by_cases noMicroseconds : parts.microseconds = 0 <;>
    simp [noDays, noSeconds, noMicroseconds]

private theorem members_eq_nil_iff {parts : Parts} : parts.members = [] ↔ parts = ⟨0, 0, 0⟩ := by
  rw [members, List.filter_eq_nil_iff, Parts.mk.injEq]
  simp

/-- The parts that are not zero, or else one zero. -/
def shown (parts : Parts) : String :=
  if parts = ⟨0, 0, 0⟩ then "0" else commaSeparated (parts.members.map memberText)

private theorem render_eq (parts : Parts) :
    parts.render = "datetime.timedelta(" ++ parts.shown ++ ")" := by
  have noFields : parts.fields = [] ↔ parts = ⟨0, 0, 0⟩ := by
    rw [parts.fields_eq, List.map_eq_nil_iff, members_eq_nil_iff]
  rw [render, call, shown, if_congr noFields rfl rfl, parts.fields_eq, String.append_assoc]
  split <;> rfl

end Parts

end Duration

/-! ## The stream of a duration -/

private theorem Numeral.length_signedDecimal_le {value : Int} (fits : Integer.FitsInt32 value) :
    (signedDecimal value).length ≤ 11 := by
  have low := fits.1
  have high := fits.2
  have digits : (decimal value.natAbs).length ≤ 10 :=
    Nat.toDigits_length 10 value.natAbs 10 (by decide) (by omega)
  rw [signedDecimal]
  split
  · rw [List.length_cons]
    omega
  · omega

namespace Protocol

private theorem length_bytes_intOpcode_le (protocol : Protocol) {value : Int}
    (fits : Integer.FitsInt32 value) : (protocol.intOpcode value).bytes.length ≤ 13 := by
  have digits := Numeral.length_signedDecimal_le fits
  have line : (LineEscaped.ascii (Numeral.signedDecimal value)).length =
      (Numeral.signedDecimal value).length := List.length_map _
  simp only [intOpcode, if_pos fits]
  repeat' split
  · simp only [Opcode.bytes, Opcode.arguments, Opcode.lineBytes, List.length_cons,
      List.length_append, List.length_nil]
    omega
  all_goals exact Nat.le_of_ble_eq_true rfl

/-- What a duration by itself is written with, around its three numbers. -/
def aroundDuration (protocol : Protocol) : List Opcode × List Opcode :=
  let slot := if 4 ≤ protocol.version then 2 else 0
  let names :=
    if 4 ≤ protocol.version then
      [protocol.textOpcode "datetime", .memoize, protocol.textOpcode "timedelta", .memoize,
        .stackGlobal]
    else [Trace.globalOpcode protocol .duration]
  let opens := if 2 ≤ protocol.version then [] else [Opcode.mark]
  (names ++ protocol.putOpcode slot :: opens,
    [protocol.tupleOpcode 3, protocol.putOpcode (slot + 1), .reduce,
      protocol.putOpcode (slot + 2)])

private theorem length_aroundDuration_le (protocol : Protocol) :
    (Stream.bytes protocol.aroundDuration.1).length +
      (Stream.bytes protocol.aroundDuration.2).length ≤ 50 := by
  have each : ∀ protocol ∈ all, (Stream.bytes protocol.aroundDuration.1).length +
      (Stream.bytes protocol.aroundDuration.2).length ≤ 50 := by
    decide
  exact each protocol protocol.mem_all

end Protocol

namespace Graph

variable {graph : Graph} {protocol : Protocol} {root : NodeId} {value : Duration}
  {parts : Duration.Parts}

private theorem exists_trace_of_duration (present : graph.node? root = some (.duration value))
    (plan : protocol.plan root (.duration value) =
      .ok (protocol.call .duration
        [protocol.int parts.days, protocol.int parts.seconds, protocol.int parts.microseconds]
        (some (.node root)))) :
    ∃ trace, graph.trace protocol root = .complete trace ∧
      trace.opcodes = protocol.aroundDuration.1 ++
        [protocol.intOpcode parts.days, protocol.intOpcode parts.seconds,
          protocol.intOpcode parts.microseconds] ++ protocol.aroundDuration.2 := by
  rcases exists_trace_eq_of_plan present plan with ⟨depth, written⟩
  rw [written]
  rcases protocol with ⟨version, supported⟩
  -- Of the opcodes only the three numbers are not known once the protocol is.
  interval_cases version <;> exact ⟨_, rfl, rfl⟩

/-- By itself a duration of normal parts becomes an object of these. -/
private theorem exists_load?_of_duration (present : graph.node? root = some (.duration value))
    {count : Int} (counted : value.microseconds? = some count)
    (normal : (Duration.parts count).Normal)
    (days : Integer.FitsInt32 (Duration.parts count).days) :
    ∃ bytes address heap, graph.pickle protocol.version root = .ok bytes ∧
      Machine.load? bytes = some (.object address, heap) ∧
      heap[address]? = some (.duration (Duration.parts count).days (Duration.parts count).seconds
        (Duration.parts count).microseconds) := by
  have plan := protocol.plan_duration counted root
  rcases exists_trace_of_duration present plan with ⟨trace, traced, opcodes⟩
  have fitsSeconds : Integer.FitsInt32 (Duration.parts count).seconds := by
    have within := normal.seconds
    exact ⟨by omega, by omega⟩
  have fitsMicroseconds : Integer.FitsInt32 (Duration.parts count).microseconds := by
    have within := normal.microseconds
    exact ⟨by omega, by omega⟩
  have short : (Stream.bytes trace.opcodes).length < 2 ^ 32 := by
    have around := protocol.length_aroundDuration_le
    have daysShort := protocol.length_bytes_intOpcode_le days
    have secondsShort := protocol.length_bytes_intOpcode_le fitsSeconds
    have microsecondsShort := protocol.length_bytes_intOpcode_le fitsMicroseconds
    rw [opcodes]
    simp only [Stream.bytes_append, Stream.bytes_cons, Stream.bytes_nil, List.length_append,
      List.length_nil]
    omega
  rcases exists_load?_of_leaf present rfl rfl traced short with
      ⟨bytes, address, heap, object, encoded, loaded, found, shows⟩
  rw [Node.object?, counted] at shows
  cases shows
  exact ⟨bytes, address, heap, encoded, loaded, found⟩

/-- A value without a plan cannot be written. -/
private theorem pickle_eq_error_of_plan {node : Node} {error : EncodeError}
    (present : graph.node? root = some node) (refused : protocol.plan root node = .error error) :
    graph.pickle protocol.version root = .error error := by
  have decided : Trace.enter graph protocol root Trace.start =
      .decided (.failed error (Trace.start.record (.begins root))) := by
    rw [Trace.enter]
    simp only [Memo.find?_empty (.node root), present, refused, Trace.start, Trace.memo_record]
  have failed : graph.trace protocol root =
      .failed error (Trace.start.record (.begins root)) := by
    rw [trace, depthBound, Nat.succ_mul]
    exact Trace.writeNode_of_decided decided _
  rw [pickle_eq, failed]

/-- A duration has one text wherever it is met. -/
private theorem rendered_of_duration {id : NodeId}
    (present : graph.node? id = some (.duration value)) : graph.render id = value.render ∧
      ∀ (depth : Nat) (active : Std.ExtTreeSet NodeId),
        (graph.renderNode (depth + 1) id).run active = some (graph.render id, active) := by
  have alone : graph.render id = value.render := by
    rw [render, StateT.run'_eq, run_renderNode_of_leaf present rfl]
    rfl
  refine ⟨alone, fun depth active => ?_⟩
  rw [alone, run_renderNode_of_leaf present rfl]
  rfl

end Graph

namespace Duration

/-! ## Durations within 64 bits, and others -/

/-- How a duration of these parts is written, and what is shown of it. -/
structure Tells (duration : Duration) (parts : Parts) : Prop where
  normal : parts.Normal
  total : parts.total = duration.count
  /-- No other normal parts tell the same number of microseconds. -/
  unique : ∀ {other : Parts}, other.Normal → other.total = duration.count → other = parts
  days : parts.days.natAbs ≤ 999999999
  plan : ∀ (protocol : Protocol) (id : NodeId), ∃ days seconds microseconds : Opcode,
    protocol.plan id (.duration duration) =
        .ok (protocol.call .duration [[.op days], [.op seconds], [.op microseconds]]
          (some (.node id))) ∧
      Machine.scalar? days = some (.int parts.days) ∧
      Machine.scalar? seconds = some (.int parts.seconds) ∧
      Machine.scalar? microseconds = some (.int parts.microseconds)
  /-- By itself a duration can be written, and is read as these parts. -/
  loaded : ∀ {graph : Graph} {root : NodeId}, graph.node? root = some (.duration duration) →
    ∀ protocol : Protocol, ∃ bytes address heap, graph.pickle protocol.version root = .ok bytes ∧
      Machine.load? bytes = some (.object address, heap) ∧
      heap[address]? = some (.duration parts.days parts.seconds parts.microseconds)
  /-- Wherever a duration is met, the parts that are not zero are shown. -/
  rendered : ∀ {graph : Graph} {id : NodeId}, graph.node? id = some (.duration duration) →
    graph.render id = "datetime.timedelta(" ++ parts.shown ++ ")" ∧
      ∀ (depth : Nat) (active : Std.ExtTreeSet NodeId),
        (graph.renderNode (depth + 1) id).run active = some (graph.render id, active)

/-- What comes of a duration that has no parts. -/
structure Refused (duration : Duration) : Prop where
  plan : ∀ (protocol : Protocol) (id : NodeId),
    protocol.plan id (.duration duration) = .error .durationOutOfRange
  alone : ∀ {graph : Graph} {root : NodeId}, graph.node? root = some (.duration duration) →
    ∀ protocol : Protocol, graph.pickle protocol.version root = .error .durationOutOfRange
  /-- No value that holds it can be written. -/
  never : ∀ {graph : Graph} {root id : NodeId}, graph.Reaches root id →
    graph.node? id = some (.duration duration) → ∀ (protocol : Protocol) (bytes : Bytes),
      graph.pickle protocol.version root ≠ .ok bytes
  /-- Where nothing else is amiss in such a value, writing it fails for the duration. -/
  within : ∀ {graph : Graph} {root id : NodeId}, graph.Reaches root id →
    graph.node? id = some (.duration duration) → ∀ protocol : Protocol,
      graph.Ends protocol root →
      (∀ (other : NodeId) (error : EncodeError), graph.Reaches root other →
        graph.Offends other error → error = .durationOutOfRange) →
      graph.pickle protocol.version root = .error .durationOutOfRange
  rendered : ∀ {graph : Graph} {id : NodeId}, graph.node? id = some (.duration duration) →
    graph.render id = "datetime.timedelta(<out of range>)" ∧
      ∀ (depth : Nat) (active : Std.ExtTreeSet NodeId),
        (graph.renderNode (depth + 1) id).run active = some (graph.render id, active)

variable {duration : Duration}

private theorem tells_of_fits (fits : Integer.FitsInt64 duration.count) :
    duration.Tells (parts duration.count) := by
  have counted : duration.microseconds? = some duration.count := if_pos fits
  have text : duration.render =
      "datetime.timedelta(" ++ (parts duration.count).shown ++ ")" := by
    rw [render, counted]
    exact Parts.render_eq _
  have normal := normal_parts duration.count
  have days := natAbs_days_le fits
  exact {
    normal := normal
    total := total_parts duration.count
    unique := fun otherNormal same =>
      otherNormal.eq_of_total_eq normal (same.trans (total_parts duration.count).symm)
    days := days.trans (by decide)
    plan := fun protocol id =>
      ⟨_, _, _, protocol.plan_duration counted id, Machine.scalar?_intOpcode protocol _,
        Machine.scalar?_intOpcode protocol _, Machine.scalar?_intOpcode protocol _⟩
    loaded := fun present protocol =>
      Graph.exists_load?_of_duration present counted normal ⟨by omega, by omega⟩
    rendered := fun present => text ▸ Graph.rendered_of_duration present }

private theorem refused_of_not_fits (wide : ¬Integer.FitsInt64 duration.count) :
    duration.Refused := by
  have uncounted : duration.microseconds? = none := if_neg wide
  have text : duration.render = "datetime.timedelta(<out of range>)" := by
    rw [render, uncounted]
  have plan (protocol : Protocol) (id : NodeId) :
      protocol.plan id (.duration duration) = .error .durationOutOfRange := by
    rw [Protocol.plan, uncounted]
  have never {graph : Graph} {root id : NodeId} (path : graph.Reaches root id)
      (present : graph.node? id = some (.duration duration)) (protocol : Protocol)
      (bytes : Bytes) : graph.pickle protocol.version root ≠ .ok bytes := by
    intro encoded
    exact (Graph.encodable_of_pickle encoded).durations id duration path present uncounted
  exact {
    plan := plan
    alone := fun present protocol => Graph.pickle_eq_error_of_plan present (plan protocol _)
    never := never
    within := fun path present protocol ends only => by
      cases encoded : Graph.pickle _ protocol.version _ with
      | ok bytes => exact absurd encoded (never path present protocol bytes)
      | error error =>
          rcases Graph.exists_offends_of_pickle ends encoded with ⟨other, reaches, offends⟩
          rw [only other error reaches offends]
    rendered := fun present => text ▸ Graph.rendered_of_duration present }

/-- A duration whose microseconds fit 64 bits is told by one triple of normal parts, written and
shown alike. Any other is neither written nor shown. -/
theorem tells_or_refused (duration : Duration) :
    (Integer.FitsInt64 duration.count ∧ ∃ parts, duration.Tells parts) ∨
      (¬Integer.FitsInt64 duration.count ∧ duration.Refused) := by
  by_cases fits : Integer.FitsInt64 duration.count
  · exact .inl ⟨fits, _, tells_of_fits fits⟩
  · exact .inr ⟨fits, refused_of_not_fits fits⟩

end Duration

end PickleTrial
