import PickleTrial.Proofs.Encoding.Dumping

/-! Writers that are used again. Nothing is carried from one call to the next but the sink, so every
call comes out as it does for a new writer, as far as the sink has room. -/

namespace PickleTrial

namespace StreamWriter

/-- A new writer. -/
def fresh (protocol : Protocol) (limit : Option Nat) (flushFails : Nat → Bool) : StreamWriter :=
  ⟨protocol, { limit, flushFails }⟩

/-- How a call comes out for a new writer without a limit, and what it delivers there. -/
def alone (protocol : Protocol) (graph : Graph) (root : NodeId) :
    Except DumpError Unit × Bytes :=
  let (result, writer) := (fresh protocol none fun _ => false).dump graph root
  (result, writer.sink.contents)

/-- The writer after calls in their order, whatever came out. -/
def dumpAll (writer : StreamWriter) (calls : List (Graph × NodeId)) : StreamWriter :=
  calls.foldl (fun writer call => (writer.dump call.1 call.2).2) writer

/-- How a call comes out and what becomes of the sink, told by how it comes out alone. -/
structure ComesOut (before : Sink) (alone : Except DumpError Unit × Bytes)
    (result : Except DumpError Unit) (after : Sink) : Prop where
  sound : after.Sound
  limit : after.limit = before.limit
  flushFails : after.flushFails = before.flushFails
  /-- With room for all of it, all of it is delivered. -/
  contents : before.HasRoom alone.2.length → after.contents = before.contents ++ alone.2
  failed : before.HasRoom alone.2.length → ∀ error, alone.1 = .error error →
    result = .error error ∧ after.flushes = before.flushes
  flushed : before.HasRoom alone.2.length → alone.1 = .ok () →
    result = (if before.flushFails before.flushes then .error (.sink .flushFailed) else .ok ()) ∧
      after.flushes = before.flushes + 1
  /-- With less room, as much is delivered as there is room for. -/
  cut : ¬before.HasRoom alone.2.length →
    result = .error (.sink .full) ∧ before.CutOff alone.2 after

variable {writer : StreamWriter}

private theorem run_flush (outlet : Outlet) : Dump.flush.run.run outlet =
    (if outlet.flushFails outlet.flushes then .error (.sink .flushFailed) else .ok (),
      { outlet with flushes := outlet.flushes + 1 }) := by
  rw [Dump.flush, Dump.run_onSink, Sink.flush]
  split <;> rfl

private theorem dump_eq (writer : StreamWriter) (graph : Graph) (root : NodeId) :
    writer.dump graph root =
      match (Dump.stream writer.protocol graph root).run.run writer.sink with
      | (.ok (), sink) =>
          (if sink.flushFails sink.flushes then .error (.sink .flushFailed) else .ok (),
            { writer with sink := { sink with flushes := sink.flushes + 1 } })
      | (.error error, sink) => (.error error, { writer with sink }) := by
  rw [dump, run_bind]
  rcases (Dump.stream writer.protocol graph root).run.run writer.sink with ⟨_ | _, sink⟩
  · rfl
  · simp only [run_flush]

/-- A call comes out as the encoding of the value does. -/
private theorem comesOut_encode (sound : writer.sink.Sound) (graph : Graph) (root : NodeId) :
    ComesOut writer.sink.toSink
      (Dump.outcome (graph.encode writer.protocol root), (graph.encode writer.protocol root).bytes)
      (writer.dump graph root).1 (writer.dump graph root).2.sink.toSink := by
  rcases Dump.sendsFrom_stream graph writer.protocol root writer.sink with
    ⟨sent, after, sends, bytes⟩
  rw [← bytes, dump_eq]
  -- With room the outcome is that of encoding; without it the sink breaks off in front of it.
  by_cases room : writer.sink.toSink.HasRoom (ByteRun.join sent).length
  · have whole := sends.whole _ room
    change (Dump.stream writer.protocol graph root).run.run writer.sink = _ at whole
    rw [whole]
    have soundAfter := sound.keepAll room
    have flushFails : (writer.sink.keepAll sent).flushFails = writer.sink.flushFails :=
      Sink.flushFails_keepAll
    have flushes : (writer.sink.keepAll sent).flushes = writer.sink.flushes :=
      Sink.flushes_keepAll
    cases Dump.outcome (graph.encode writer.protocol root) with
    | error error => exact {
        sound := soundAfter
        limit := Sink.limit_keepAll
        flushFails
        contents := fun _ => Sink.contents_keepAll
        failed := fun _ other same => ⟨same, flushes⟩
        flushed := fun _ ok => nomatch ok
        cut := fun noRoom => absurd room noRoom }
    | ok value => exact {
        sound := ⟨soundAfter.size, soundAfter.within⟩
        limit := Sink.limit_keepAll
        flushFails
        contents := fun _ => Sink.contents_keepAll
        failed := fun _ error failed => nomatch failed
        flushed := fun _ _ => ⟨by rw [← flushFails, ← flushes]; rfl, congrArg (· + 1) flushes⟩
        cut := fun noRoom => absurd room noRoom }
  · rcases sends.cut _ sound room with ⟨last, broken, cut⟩
    change (Dump.stream writer.protocol graph root).run.run writer.sink = _ at broken
    rw [broken]
    exact ⟨cut.sound, cut.limit, cut.flushFails, fun has => absurd has room,
      fun has => absurd has room, fun has => absurd has room, fun _ => ⟨rfl, cut⟩⟩

/-- Alone, a call delivers the stream of the value. -/
private theorem alone_eq (protocol : Protocol) (graph : Graph) (root : NodeId) :
    alone protocol graph root =
      (Dump.outcome (graph.encode protocol root), (graph.encode protocol root).bytes) := by
  have sound : (fresh protocol none fun _ => false).sink.Sound := ⟨rfl, fun _ _ => Nat.zero_le _⟩
  have comes := comesOut_encode sound graph root
  have room : (fresh protocol none fun _ => false).sink.toSink.HasRoom
      (graph.encode protocol root).bytes.length := Sink.hasRoom_of_unlimited rfl _
  refine Prod.ext ?_ (comes.contents room)
  have failed := comes.failed room
  have flushed := comes.flushed room
  cases ends : Dump.outcome (graph.encode protocol root) with
  | error error => exact (failed error ends).1
  | ok value => exact (flushed ends).1

/-- What calls keep of a writer. -/
structure Steady (first last : StreamWriter) : Prop where
  sound : last.sink.Sound
  protocol : last.protocol = first.protocol
  limit : last.sink.limit = first.sink.limit
  flushFails : last.sink.flushFails = first.sink.flushFails

private theorem steady_dumpAll (sound : writer.sink.Sound) (calls : List (Graph × NodeId)) :
    Steady writer (writer.dumpAll calls) := by
  induction calls generalizing writer with
  | nil => exact ⟨sound, rfl, rfl, rfl⟩
  | cons call rest induction =>
      have comes := comesOut_encode sound call.1 call.2
      have later := induction comes.sound
      exact ⟨later.sound, later.protocol, later.limit.trans comes.limit,
        later.flushFails.trans comes.flushFails⟩

/-- What there is room for of bytes. -/
def fitting (limit : Option Nat) (bytes : Bytes) : Bytes :=
  match limit with
  | none => bytes
  | some limit => bytes.take limit

private theorem fitting_append_of_comesOut {before after : Sink} {result : Except DumpError Unit}
    {alone : Except DumpError Unit × Bytes} (comes : ComesOut before alone result after)
    (more : Bytes) :
    fitting after.limit (after.contents ++ more) =
      fitting before.limit (before.contents ++ (alone.2 ++ more)) := by
  rw [comes.limit, ← List.append_assoc]
  by_cases room : before.HasRoom alone.2.length
  · rw [comes.contents room]
  · cases limited : before.limit with
    | none => exact absurd (Sink.hasRoom_of_unlimited limited _) room
    | some limit =>
        rcases (comes.cut room).2.contents limit limited with ⟨short, taken⟩
        have within : limit ≤ (before.contents ++ alone.2).length := by
          rw [List.length_append]
          omega
        rw [fitting, fitting, taken, List.take_append_of_le_length within,
          List.take_append_of_le_length (by rw [List.length_take]; omega), List.take_take,
          Nat.min_self]

/-- After calls the sink holds what they deliver alone, as far as there is room. -/
private theorem contents_dumpAll (sound : writer.sink.Sound) (calls : List (Graph × NodeId)) :
    (writer.dumpAll calls).sink.contents = fitting writer.sink.limit (writer.sink.contents ++
      calls.flatMap fun call => (alone writer.protocol call.1 call.2).2) := by
  induction calls generalizing writer with
  | nil =>
      rw [List.flatMap_nil, List.append_nil]
      unfold fitting
      split
      · rfl
      · rename_i limit limited
        exact (List.take_of_length_le (sound.size ▸ sound.within limit limited)).symm
  | cons call rest induction =>
      have comes := comesOut_encode sound call.1 call.2
      rw [← alone_eq] at comes
      have later := induction comes.sound
      rw [List.flatMap_cons, ← fitting_append_of_comesOut comes]
      exact later

/-- What is known of a writer after calls, and of one more call. -/
structure Independent (protocol : Protocol) (limit : Option Nat) (flushFails : Nat → Bool)
    (earlier : List (Graph × NodeId)) (graph : Graph) (root : NodeId) (writer : StreamWriter) :
    Prop where
  steady : Steady (fresh protocol limit flushFails) writer
  contents : writer.sink.contents =
    fitting limit (earlier.flatMap fun call => (alone protocol call.1 call.2).2)
  /-- The call comes out as it does alone. -/
  comesOut : ComesOut writer.sink.toSink (alone protocol graph root) (writer.dump graph root).1
    (writer.dump graph root).2.sink.toSink
  /-- What it delivers alone is the stream of the value, as far as it can be encoded. -/
  encoded : alone protocol graph root =
    (Dump.outcome (graph.encode protocol root), (graph.encode protocol root).bytes)

/-- Whatever a writer was called for before, a call comes out as it does alone. -/
theorem independent_dumpAll (protocol : Protocol) (limit : Option Nat) (flushFails : Nat → Bool)
    (earlier : List (Graph × NodeId)) (graph : Graph) (root : NodeId) :
    Independent protocol limit flushFails earlier graph root
      ((fresh protocol limit flushFails).dumpAll earlier) := by
  have sound : (fresh protocol limit flushFails).sink.Sound := ⟨rfl, fun _ _ => Nat.zero_le _⟩
  have steady := steady_dumpAll sound earlier
  have comes := comesOut_encode steady.sound graph root
  rw [steady.protocol] at comes
  refine ⟨steady, contents_dumpAll sound earlier, ?_, alone_eq protocol graph root⟩
  rwa [alone_eq]

/-- The second of two streams is cut off. -/
example : ((fresh ⟨2, by decide⟩ (some 6) fun _ => false).dumpAll
    [(⟨#[.none]⟩, 0), (⟨#[.none]⟩, 0)]).sink.contents =
      [0x80, 0x02, 0x4e, 0x2e, 0x80, 0x02] := by decide +kernel

end StreamWriter

end PickleTrial
