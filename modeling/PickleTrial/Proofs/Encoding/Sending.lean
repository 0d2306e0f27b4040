import PickleTrial.Encoding.Sink

/-! What parts of a program send to a sink. A part that sends does so whatever the sink holds, and
comes out the same wherever there is room for all it sends; where there is not, it breaks off when
the sink is full. Parts made of such parts are such parts. -/

namespace PickleTrial

namespace Sink

variable {sink : Sink} {bytes : Bytes} {run : ByteRun} {runs : List ByteRun}

/-! ## Room -/

/-- A sink that has kept no more than it has room for. -/
structure Sound (sink : Sink) : Prop where
  size : sink.size = sink.contents.length
  within : ∀ limit, sink.limit = some limit → sink.size ≤ limit

def HasRoom (sink : Sink) (count : Nat) : Prop :=
  ∀ limit, sink.limit = some limit → sink.size + count ≤ limit

theorem contents_keep : (sink.keep run).contents = sink.contents ++ run.bytes := by
  rw [contents, keep, List.reverse_cons, ByteRun.join_append, ByteRun.join_singleton]
  rfl

theorem Sound.keep (sound : sink.Sound) (room : sink.HasRoom run.length) :
    (sink.keep run).Sound where
  size := by
    rw [contents_keep, List.length_append, ← sound.size, run.length_bytes]
    rfl
  within := room

theorem hasRoom_of_unlimited (unlimited : sink.limit = none) (count : Nat) :
    sink.HasRoom count := by
  intro limit limited
  rw [unlimited] at limited
  cases limited

def keepAll (sink : Sink) (runs : List ByteRun) : Sink :=
  runs.foldl keep sink

theorem contents_keepAll :
    (sink.keepAll runs).contents = sink.contents ++ ByteRun.join runs := by
  induction runs generalizing sink with
  | nil => exact (List.append_nil _).symm
  | cons run rest induction =>
      rw [keepAll, List.foldl_cons, ← keepAll, induction, contents_keep, ByteRun.join_cons,
        List.append_assoc]

private theorem keepAll_append (more : List ByteRun) :
    sink.keepAll (runs ++ more) = (sink.keepAll runs).keepAll more :=
  List.foldl_append

private theorem size_keepAll :
    (sink.keepAll runs).size = sink.size + (ByteRun.join runs).length := by
  induction runs generalizing sink with
  | nil => rfl
  | cons run rest induction =>
      rw [keepAll, List.foldl_cons, ← keepAll, induction, ByteRun.join_cons, List.length_append,
        ← Nat.add_assoc, run.length_bytes]
      rfl

/-- Keeping bytes changes nothing else. -/
private theorem keepAll_eq : sink.keepAll runs =
    { sink with kept := (sink.keepAll runs).kept, size := (sink.keepAll runs).size } := by
  induction runs generalizing sink with
  | nil => rfl
  | cons run rest induction => exact induction

theorem limit_keepAll : (sink.keepAll runs).limit = sink.limit := by
  rw [keepAll_eq]

theorem flushFails_keepAll : (sink.keepAll runs).flushFails = sink.flushFails := by
  rw [keepAll_eq]

theorem flushes_keepAll : (sink.keepAll runs).flushes = sink.flushes := by
  rw [keepAll_eq]

theorem Sound.keepAll (sound : sink.Sound) (room : sink.HasRoom (ByteRun.join runs).length) :
    (sink.keepAll runs).Sound where
  size := by rw [size_keepAll, contents_keepAll, List.length_append, sound.size]
  within := by
    rw [limit_keepAll, size_keepAll]
    exact room

private theorem hasRoom_append (more : List ByteRun) :
    sink.HasRoom (ByteRun.join (runs ++ more)).length ↔
      sink.HasRoom (ByteRun.join runs).length ∧
        (sink.keepAll runs).HasRoom (ByteRun.join more).length := by
  unfold HasRoom
  rw [limit_keepAll, size_keepAll, ByteRun.join_append, List.length_append, ← Nat.add_assoc]
  constructor
  · intro room
    exact ⟨fun limit limited => Nat.le_of_add_right_le (room limit limited), room⟩
  · exact And.right

/-! ## Sinks that get full -/

/-- What becomes of a sink that is given more bytes than it has room for. -/
structure CutOff (before : Sink) (bytes : Bytes) (after : Sink) : Prop where
  sound : after.Sound
  limit : after.limit = before.limit
  flushFails : after.flushFails = before.flushFails
  flushes : after.flushes = before.flushes
  contents : ∀ limit, before.limit = some limit →
    limit < before.contents.length + bytes.length ∧
      after.contents = (before.contents ++ bytes).take limit

/-- A sink that was cut off holds what it would hold if it had been given still more. -/
private theorem CutOff.append {after : Sink} (cut : sink.CutOff bytes after) (more : Bytes) :
    sink.CutOff (bytes ++ more) after := by
  refine ⟨cut.sound, cut.limit, cut.flushFails, cut.flushes, fun limit limited => ?_⟩
  rcases cut.contents limit limited with ⟨short, taken⟩
  have within : limit ≤ (sink.contents ++ bytes).length := by
    rw [List.length_append]
    omega
  rw [List.length_append, ← List.append_assoc, List.take_append_of_le_length within]
  exact ⟨by omega, taken⟩

/-- A sink that kept bytes before it was cut off was given all of them. -/
theorem CutOff.behind {after : Sink} (cut : (sink.keepAll runs).CutOff bytes after) :
    sink.CutOff (ByteRun.join runs ++ bytes) after := by
  refine ⟨cut.sound, cut.limit.trans limit_keepAll, cut.flushFails.trans flushFails_keepAll,
    cut.flushes.trans flushes_keepAll, fun limit limited => ?_⟩
  rcases cut.contents limit (limit_keepAll.trans limited) with ⟨short, taken⟩
  rw [contents_keepAll, List.length_append] at short
  rw [contents_keepAll, List.append_assoc] at taken
  rw [List.length_append]
  exact ⟨by omega, taken⟩

private theorem write_of_hasRoom (room : sink.HasRoom run.length) :
    sink.write run = (.ok (), sink.keep run) := by
  rw [write]
  cases limited : sink.limit with
  | none => rfl
  | some limit => exact if_pos (room limit limited)

private theorem write_of_not_hasRoom (sound : sink.Sound) (noRoom : ¬sink.HasRoom run.length) :
    ∃ after, sink.write run = (.error .full, after) ∧ sink.CutOff run.bytes after := by
  cases limited : sink.limit with
  | none => exact absurd (hasRoom_of_unlimited limited _) noRoom
  | some limit =>
      have the {other : Nat} (same : sink.limit = some other) : limit = other := by
        cases limited.symm.trans same
        rfl
      have short : ¬sink.size + run.length ≤ limit := fun long =>
        noRoom fun other same => the same ▸ long
      have within := sound.within limit limited
      have fits : (run.take (limit - sink.size)).length = limit - sink.size :=
        Nat.min_eq_left (by omega)
      have kept : sink.contents.take limit = sink.contents :=
        List.take_of_length_le (sound.size ▸ within)
      refine ⟨sink.keep (run.take (limit - sink.size)), ?_, ?_, rfl, rfl, rfl, ?_⟩
      · simp only [write, limited, if_neg short]
      · refine sound.keep fun other same => ?_
        rw [fits, ← the same]
        omega
      · intro other same
        rw [← the same, contents_keep, List.take_append, kept, ← sound.size, run.length_bytes]
        exact ⟨by omega, rfl⟩

end Sink

/-! ## Parts that send -/

variable {ε τ α β : Type}

theorem run_bind (part : ExceptT ε (StateM τ) α) (next : α → ExceptT ε (StateM τ) β)
    (before : τ) : (part >>= next).run.run before =
      match part.run.run before with
      | (.ok value, middle) => (next value).run.run middle
      | (.error error, middle) => (.error error, middle) := by
  rw [ExceptT.run_bind, StateT.run_bind]
  change (match part.run.run before with | (value, middle) => _) = _
  rcases part.run.run before with ⟨_ | value, middle⟩
  · rfl
  · rfl

theorem run_get (state : τ) :
    (get : ExceptT ε (StateM τ) τ).run.run state = (.ok state, state) :=
  rfl

/-- Where a state has its sink. -/
structure SinkPlace (τ : Type) where
  sink : τ → Sink
  put : Sink → τ → τ
  sink_put : ∀ given state, sink (put given state) = given

section Sends

variable {place : SinkPlace τ} {full : ε} {part : ExceptT ε (StateM τ) α}
  {next : α → ExceptT ε (StateM τ) β} {state middle after : τ} {sent more : List ByteRun}

/-- From a state a part comes out so and sends these runs of bytes, whatever the sink holds, if it
has room; if not, the part breaks off. -/
structure SendsFrom (place : SinkPlace τ) (full : ε) (part : ExceptT ε (StateM τ) α) (state : τ)
    (result : Except ε α) (sent : List ByteRun) (after : τ) : Prop where
  whole : ∀ given : Sink, given.HasRoom (ByteRun.join sent).length →
    part.run.run (place.put given state) = (result, place.put (given.keepAll sent) after)
  cut : ∀ given : Sink, given.Sound → ¬given.HasRoom (ByteRun.join sent).length →
    ∃ last, part.run.run (place.put given state) = (.error full, last) ∧
      given.CutOff (ByteRun.join sent) (place.sink last)

theorem SendsFrom.bind_error {error : ε}
    (first : SendsFrom place full part state (.error error) sent after) :
    SendsFrom place full (part >>= next) state (.error error) sent after where
  whole given room := by
    rw [run_bind, first.whole given room]
  cut given sound noRoom := by
    rcases first.cut given sound noRoom with ⟨last, ends, cut⟩
    exact ⟨last, by rw [run_bind, ends], cut⟩

theorem SendsFrom.bind_ok {value : α} {result : Except ε β}
    (first : SendsFrom place full part state (.ok value) sent middle)
    (second : SendsFrom place full (next value) middle result more after) :
    SendsFrom place full (part >>= next) state result (sent ++ more) after where
  whole given room := by
    rw [Sink.hasRoom_append] at room
    rw [run_bind, first.whole given room.1, Sink.keepAll_append]
    exact second.whole _ room.2
  cut given sound noRoom := by
    rw [Sink.hasRoom_append] at noRoom
    rw [ByteRun.join_append]
    by_cases room : given.HasRoom (ByteRun.join sent).length
    · rcases second.cut _ (sound.keepAll room) fun roomLater => noRoom ⟨room, roomLater⟩ with
        ⟨last, ends, cut⟩
      refine ⟨last, ?_, cut.behind⟩
      rw [run_bind, first.whole given room]
      exact ends
    · rcases first.cut given sound room with ⟨last, ends, cut⟩
      exact ⟨last, by rw [run_bind, ends], cut.append _⟩

/-- A part that leaves the sink alone. -/
theorem sendsFrom_quiet (quiet : ∀ given, part.run.run (place.put given state) =
    ((part.run.run state).1, place.put given (part.run.run state).2)) :
    SendsFrom place full part state (part.run.run state).1 [] (part.run.run state).2 where
  whole given _ := quiet given
  cut _ sound noRoom := absurd sound.within noRoom

theorem sendsFrom_write {part : ExceptT ε (StateM τ) Unit} {run : ByteRun} {failed : SinkError → ε}
    (runs : ∀ given, part.run.run (place.put given state) =
      ((given.write run).1.mapError failed, place.put (given.write run).2 state)) :
    SendsFrom place (failed .full) part state (.ok ()) [run] state := by
  constructor
  · intro given room
    rw [ByteRun.join_singleton, run.length_bytes] at room
    rw [runs, Sink.write_of_hasRoom room]
    rfl
  · intro given sound noRoom
    rw [ByteRun.join_singleton, run.length_bytes] at noRoom
    rw [ByteRun.join_singleton]
    rcases Sink.write_of_not_hasRoom sound noRoom with ⟨last, written, cut⟩
    refine ⟨place.put last state, ?_, ?_⟩
    · rw [runs, written]
      rfl
    · rw [place.sink_put]
      exact cut

/-- A part that does nothing to the sink but send to it, and does not depend on it until it is
full. -/
def Sends (place : SinkPlace τ) (full : ε) (part : ExceptT ε (StateM τ) α) : Prop :=
  ∀ state, ∃ result sent after, SendsFrom place full part state result sent after

theorem sends_pure (value : α) : Sends place full (pure value) :=
  fun _ => ⟨_, _, _, sendsFrom_quiet fun _ => rfl⟩

theorem sends_bind (first : Sends place full part)
    (second : ∀ value, Sends place full (next value)) : Sends place full (part >>= next) := by
  intro state
  rcases first state with ⟨_ | value, sent, middle, one⟩
  · exact ⟨_, _, _, one.bind_error⟩
  · rcases second value middle with ⟨result, more, after, two⟩
    exact ⟨_, _, _, one.bind_ok two⟩

end Sends

end PickleTrial
