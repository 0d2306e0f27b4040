import PickleTrial.Proofs.Encoding.Termination

/-! What is left of dates and times in the bytes by which they are written. Everything is but for
the year, of which there are 16 bits: years that fit them are kept, others become another year, and
no date is refused. -/

namespace PickleTrial

/-- A date in the calendar, told by its numbers. -/
structure DateFields where
  year : Int
  month : Nat
  day : Nat
deriving DecidableEq

/-- A time of day in whole microseconds, told by its numbers. -/
structure TimeFields where
  hour : Nat
  minute : Nat
  second : Nat
  microsecond : Nat
deriving DecidableEq

/-- What there is of a date, of a time, or of both. -/
structure CalendarFields where
  date : Option DateFields
  time : Option TimeFields
deriving DecidableEq

def Date.toFields (date : Date) : DateFields :=
  ⟨date.year, date.month, date.day⟩

def Time.toFields (time : Time) : TimeFields :=
  ⟨time.hour, time.minute, time.second, time.microsecond⟩

/-- A year as 16 bits carry it. -/
def DateFields.wrapped (date : DateFields) : DateFields :=
  { date with year := date.year % 65536 }

namespace CalendarFields

def wrapped (fields : CalendarFields) : CalendarFields :=
  { fields with date := fields.date.map DateFields.wrapped }

/-- The numbers in the state of a date, of a time, or of both: two bytes of the year, highest
first, the month and the day; the hour, the minute, the second, and three bytes of microseconds. -/
def unpack? : Callable → Bytes → Option CalendarFields
  | .date, [high, low, month, day] =>
      some ⟨some ⟨(256 * high.toNat + low.toNat : Nat), month.toNat, day.toNat⟩, none⟩
  | .time, [hour, minute, second, high, middle, low] =>
      some ⟨none, some ⟨hour.toNat, minute.toNat, second.toNat,
        65536 * high.toNat + 256 * middle.toNat + low.toNat⟩⟩
  | .moment, high :: low :: month :: day :: hour :: minute :: second :: [top, middle, bottom] =>
      some ⟨some ⟨(256 * high.toNat + low.toNat : Nat), month.toNat, day.toNat⟩,
        some ⟨hour.toNat, minute.toNat, second.toNat,
          65536 * top.toNat + 256 * middle.toNat + bottom.toNat⟩⟩
  | _, _ => none

end CalendarFields

namespace Node

def calendar? : Node → Option CalendarFields
  | .moment value => some ⟨some value.date.toFields, some value.time.toFields⟩
  | .date value => some ⟨some value.toFields, Option.none⟩
  | .time value => some ⟨Option.none, some value.toFields⟩
  | _ => Option.none

/-- The state of a date or time, and what is called with it. -/
def state? : Node → Option (Callable × Bytes)
  | .moment value => some (.moment, value.packed)
  | .date value => some (.date, value.packed)
  | .time value => some (.time, value.packed)
  | _ => Option.none

end Node

/-! ## Packed bytes -/

private theorem daysInMonth_le (year : Int) (month : Nat) : daysInMonth year month ≤ 31 := by
  unfold daysInMonth
  repeat' split
  all_goals decide

private theorem Date.packed_eq (date : Date) :
    date.packed = [UInt8.ofNat ((date.year % 65536).toNat / 256),
      UInt8.ofNat (date.year % 65536).toNat, UInt8.ofNat date.month, UInt8.ofNat date.day] :=
  rfl

private theorem Time.packed_eq (time : Time) :
    time.packed = [UInt8.ofNat time.hour, UInt8.ofNat time.minute, UInt8.ofNat time.second,
      UInt8.ofNat (time.microsecond / 256 / 256), UInt8.ofNat (time.microsecond / 256),
      UInt8.ofNat time.microsecond] :=
  rfl

private theorem Time.microsecond_lt (time : Time) : time.microsecond < 1000000 :=
  Nat.mod_lt _ (by omega)

/-- The numbers of a date are those that its bytes hold, the year within 16 bits. -/
private theorem Date.wrapped_toFields (date : Date) :
    date.toFields.wrapped =
      ⟨(256 * (UInt8.ofNat ((date.year % 65536).toNat / 256)).toNat +
          (UInt8.ofNat (date.year % 65536).toNat).toNat : Nat),
        (UInt8.ofNat date.month).toNat, (UInt8.ofNat date.day).toNat⟩ := by
  have month := date.isDate.2.1.2
  have day := Nat.le_trans date.isDate.2.2.2 (daysInMonth_le date.year date.month)
  simp only [toFields, DateFields.wrapped, UInt8.toNat_ofNat', DateFields.mk.injEq]
  omega

private theorem Time.toFields_eq (time : Time) :
    time.toFields =
      ⟨(UInt8.ofNat time.hour).toNat, (UInt8.ofNat time.minute).toNat,
        (UInt8.ofNat time.second).toNat,
        65536 * (UInt8.ofNat (time.microsecond / 256 / 256)).toNat +
          256 * (UInt8.ofNat (time.microsecond / 256)).toNat +
          (UInt8.ofNat time.microsecond).toNat⟩ := by
  have clock := time.isTime.1
  have within := time.microsecond_lt
  simp only [toFields, UInt8.toNat_ofNat', TimeFields.mk.injEq]
  omega

/-- Only the year goes beyond the bytes of a date. -/
private theorem Date.packed_congr {first second : Date}
    (same : first.toFields.wrapped = second.toFields.wrapped) : first.packed = second.packed := by
  simp only [toFields, DateFields.wrapped, DateFields.mk.injEq] at same
  rw [packed_eq, packed_eq, same.1, same.2.1, same.2.2]

private theorem Time.packed_congr {first second : Time} (same : first.toFields = second.toFields) :
    first.packed = second.packed := by
  simp only [toFields, TimeFields.mk.injEq] at same
  rw [packed_eq, packed_eq, same.1, same.2.1, same.2.2.1, same.2.2.2]

/-! ## Nodes -/

private theorem CalendarFields.wrapped_eq_self_iff {fields : CalendarFields} :
    fields.wrapped = fields ↔ ∀ date ∈ fields.date, 0 ≤ date.year ∧ date.year < 65536 := by
  cases fields with
  | mk date time =>
      cases date with
      | none => simp [wrapped]
      | some date =>
          cases date
          simp only [wrapped, Option.map_some, DateFields.wrapped, mk.injEq, Option.some.injEq,
            DateFields.mk.injEq, and_true, Option.mem_some_iff, forall_eq']
          omega

namespace Node

variable {node other : Node} {fields otherFields : CalendarFields} {callable : Callable}
  {state : Bytes}

private theorem exists_state? (known : node.calendar? = some fields) :
    ∃ callable state, node.state? = some (callable, state) := by
  cases node with
  | moment | date | time => exact ⟨_, _, rfl⟩
  | _ => cases known

private theorem unpack?_of_state? (known : node.calendar? = some fields)
    (packed : node.state? = some (callable, state)) :
    CalendarFields.unpack? callable state = some fields.wrapped := by
  cases node with
  | moment value =>
      cases known
      cases packed
      rw [Moment.packed, Date.packed_eq, Time.packed_eq, CalendarFields.wrapped, Option.map_some,
        Date.wrapped_toFields, Time.toFields_eq]
      rfl
  | date value =>
      cases known
      cases packed
      rw [Date.packed_eq, CalendarFields.wrapped, Option.map_some, Date.wrapped_toFields]
      rfl
  | time value =>
      cases known
      cases packed
      rw [Time.packed_eq, CalendarFields.wrapped, Time.toFields_eq]
      rfl
  | _ => cases known

private theorem state?_congr (known : node.calendar? = some fields)
    (otherKnown : other.calendar? = some otherFields)
    (same : otherFields.wrapped = fields.wrapped) : other.state? = node.state? := by
  cases node <;> cases known <;> cases other <;> cases otherKnown <;>
    simp only [CalendarFields.wrapped, Option.map_some, Option.map_none, CalendarFields.mk.injEq,
      Option.some.injEq, reduceCtorEq, false_and, and_false, and_true, true_and] at same
  · simp only [state?, Moment.packed, Date.packed_congr same.1, Time.packed_congr same.2]
  · simp only [state?, Date.packed_congr same]
  · simp only [state?, Time.packed_congr same]

private theorem microsecond_lt_of_calendar? (known : node.calendar? = some fields) :
    ∀ time ∈ fields.time, time.microsecond < 1000000 := by
  cases node with
  | moment value | time value =>
      cases known
      simpa [Time.toFields] using Time.microsecond_lt _
  | date value =>
      cases known
      nofun
  | _ => cases known

private theorem plan_of_state? (packed : node.state? = some (callable, state)) (protocol : Protocol)
    (id : NodeId) :
    protocol.plan id node =
      .ok (protocol.call callable [protocol.bytes state Option.none] (some (.node id))) := by
  cases node with
  | moment | date | time =>
      cases packed
      rfl
  | _ => cases packed

end Node

/-- A value that holds no node and gets its slot at the end can be encoded. -/
private theorem Graph.exists_pickle_of_storedAtEnd {graph : Graph} {protocol : Protocol}
    {root : NodeId} {node : Node} {key : Option MemoKey} {steps : List Step}
    (present : graph.node? root = some node) (plan : protocol.plan root node = .ok steps)
    (stored : Protocol.StoredAtEnd protocol key steps) :
    ∃ bytes, graph.pickle protocol.version root = .ok bytes := by
  rcases stored with ⟨before, rfl, glue⟩
  rcases exists_trace_eq_of_plan present plan with ⟨depth, written⟩
  rcases Trace.exists_performAll_glue (Trace.writeNode graph protocol depth) glue
    (Trace.start.record (.begins root)) with ⟨middle, performed⟩
  rw [Trace.performAll_append.2 ⟨middle, performed, rfl⟩] at written
  exact ⟨_, pickle_eq.trans (by rw [written])⟩

/-! ## What is lost -/

/-- How a date or time is written, and what is left of it. -/
structure PacksCalendar (node : Node) (fields : CalendarFields) (callable : Callable)
    (state : Bytes) : Prop where
  packed : node.state? = some (callable, state)
  plan : ∀ (protocol : Protocol) (id : NodeId), protocol.plan id node =
    .ok (protocol.call callable [protocol.bytes state none] (some (.node id)))
  /-- No date is refused. -/
  encodes : ∀ {graph : Graph} {root : NodeId}, graph.node? root = some node →
    ∀ protocol : Protocol, ∃ bytes, graph.pickle protocol.version root = .ok bytes
  unpacked : CalendarFields.unpack? callable state = some fields.wrapped
  kept_iff : CalendarFields.unpack? callable state = some fields ↔
    ∀ date ∈ fields.date, 0 ≤ date.year ∧ date.year < 65536
  microsecond : ∀ time ∈ fields.time, time.microsecond < 1000000
  /-- A state is shared with what differs by multiples of 65536 years. -/
  shared_iff : ∀ {other : Node} {otherFields : CalendarFields},
    other.calendar? = some otherFields →
      (other.state? = some (callable, state) ↔ otherFields.wrapped = fields.wrapped)

theorem exists_packsCalendar {node : Node} {fields : CalendarFields}
    (known : node.calendar? = some fields) :
    ∃ callable state, PacksCalendar node fields callable state := by
  rcases Node.exists_state? known with ⟨callable, state, packed⟩
  have unpacked := Node.unpack?_of_state? known packed
  refine ⟨callable, state, packed, Node.plan_of_state? packed, fun present protocol => ?_,
    unpacked, ?_, Node.microsecond_lt_of_calendar? known,
    fun otherKnown => ⟨fun otherPacked => ?_, fun same => ?_⟩⟩
  · refine Graph.exists_pickle_of_storedAtEnd present (Node.plan_of_state? packed protocol _)
      (Protocol.storedAtEnd_call ?_ _)
    simp only [List.forall_mem_cons]
    exact ⟨(Protocol.storedAtEnd_bytes state none).glue, by simp⟩
  · rw [unpacked, Option.some.injEq, CalendarFields.wrapped_eq_self_iff]
  · have again := Node.unpack?_of_state? otherKnown otherPacked
    exact Option.some.inj (again.symm.trans unpacked)
  · exact (Node.state?_congr known otherKnown same).trans packed

/-- A date whose year is 65536 years after that of another one: both have one state. -/
theorem exists_packsCalendar_beyond_16_bits :
    ∃ node : Node, node.calendar? = some ⟨some ⟨67535, 12, 31⟩, none⟩ ∧
      ∃ callable state, PacksCalendar node ⟨some ⟨67535, 12, 31⟩, none⟩ callable state ∧
        ∃ other : Node, other.calendar? = some ⟨some ⟨1999, 12, 31⟩, none⟩ ∧
          other.state? = some (callable, state) := by
  have known : (Node.date ⟨67535, 12, 31, by decide⟩).calendar? =
      some ⟨some ⟨67535, 12, 31⟩, none⟩ := rfl
  rcases exists_packsCalendar known with ⟨callable, state, packs⟩
  have otherKnown : (Node.date ⟨1999, 12, 31, by decide⟩).calendar? =
      some ⟨some ⟨1999, 12, 31⟩, none⟩ := rfl
  exact ⟨_, known, callable, state, packs, _, otherKnown, (packs.shared_iff otherKnown).2 rfl⟩

end PickleTrial
