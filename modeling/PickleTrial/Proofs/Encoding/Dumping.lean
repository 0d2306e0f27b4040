import PickleTrial.Proofs.Encoding.Framing
import PickleTrial.Proofs.Encoding.Sending

/-! What a writer delivers. While it encodes a value, it has sent the pieces complete by then and
holds the rest; so it delivers the stream of the value, whatever was there of an earlier stream. -/

namespace PickleTrial

def Outlet.place : SinkPlace Outlet where
  sink := toSink
  put given outlet := { outlet with toSink := given }
  sink_put _ _ := rfl

namespace Trace

/-! ## Traces behind others -/

/-- The trace with what was written before, which its memo knows already. -/
def behind (trace : Trace) (earlier : List Event) : Trace :=
  { trace with reversed := trace.reversed ++ earlier.reverse }

/-- What is done to a trace adds events that depend on its memo only. -/
def Local (act : Trace → Trace) : Prop :=
  ∀ trace, act trace = (act { memo := trace.memo }).behind trace.events

namespace Local

variable {act next : Trace → Trace} {protocol : Protocol}

private theorem record (event : Event) : Local (·.record event) := by
  intro trace
  simp [Trace.record, behind, events]

private theorem emit (opcode : Opcode) : Local (·.emit opcode) :=
  record (.op opcode)

private theorem comp (first : Local act) (second : Local next) : Local (next ∘ act) := by
  intro trace
  have same := second (act { memo := trace.memo })
  rw [Function.comp_apply, first trace, second, Function.comp_apply, same]
  simp [behind, events]

private theorem remember (key : Option MemoKey) : Local (·.remember protocol key) := by
  intro trace
  simp [Trace.remember, Trace.emit, Trace.record, behind, events]

private theorem emitAll (opcodes : List Opcode) : Local (·.emitAll opcodes) := by
  induction opcodes with
  | nil =>
      intro trace
      simp [Trace.emitAll, behind, events]
  | cons opcode rest induction => exact (emit opcode).comp induction

private theorem fetchOr (key : MemoKey) (write : Local act) :
    Local (·.fetchOr protocol key act) := by
  intro trace
  simp only [Trace.fetchOr]
  cases trace.memo.find? key with
  | some slot => exact emit _ trace
  | none => exact write trace

private theorem freshText (content : String) : Local (·.freshText protocol content) :=
  (emit _).comp (remember none)

private theorem sharedText (content : String) : Local (·.sharedText protocol content) :=
  fetchOr _ ((emit _).comp (remember _))

private theorem stackedNames (callable : Callable) : Local (·.stackedNames protocol callable) := by
  have named : Local fun trace => if callable.isFunction then
      trace.freshText protocol callable.module else trace.sharedText protocol callable.module := by
    split
    · exact freshText _
    · exact sharedText _
  exact ((((record .split).comp named).comp (record .split)).comp (freshText _)).comp (emit _)

private theorem callable (callable : Callable) : Local (·.callable protocol callable) := by
  have written : Local fun trace => if 4 ≤ protocol.version then
      trace.stackedNames protocol callable else trace.emit (globalOpcode protocol callable) := by
    split
    · exact stackedNames callable
    · exact emit _
  exact fetchOr _ (written.comp (remember _))

private theorem endTuple (id : NodeId) (count : Nat) : Local (·.endTuple protocol id count) := by
  intro trace
  simp only [Trace.endTuple]
  cases trace.memo.find? (.node id) with
  | some slot => exact ((emitAll _).comp (emit _)) trace
  | none => exact ((emit _).comp (remember _)) trace

end Local

end Trace

namespace Dump

variable {α : Type} {protocol : Protocol} {outlet : Outlet} {trace middle : Trace}

/-! ## What is sent -/

private theorem sendsFrom_onDraft (act : StateM Draft α) :
    SendsFrom Outlet.place (.sink .full) (onDraft act) outlet (.ok (act.run outlet.toDraft).1) []
      { outlet with toDraft := (act.run outlet.toDraft).2 } :=
  sendsFrom_quiet fun _ => rfl

private theorem sendsFrom_modify (change : Draft → Draft) :
    SendsFrom Outlet.place (.sink .full) (onDraft (modify change)) outlet (.ok ()) []
      { outlet with toDraft := change outlet.toDraft } :=
  sendsFrom_onDraft (modify change)

private theorem sendsFrom_look {next : Draft → DumpM α} {result : Except DumpError α}
    {sent : List ByteRun} {after : Outlet}
    (sends : SendsFrom Outlet.place (.sink .full) (next outlet.toDraft) outlet result sent after) :
    SendsFrom Outlet.place (.sink .full) (onDraft get >>= next) outlet result sent after :=
  (sendsFrom_onDraft get).bind_ok sends

theorem run_onSink (act : Sink → Except SinkError Unit × Sink) (outlet : Outlet) :
    (onSink act).run.run outlet =
      ((act outlet.toSink).1.mapError .sink, { outlet with toSink := (act outlet.toSink).2 }) := by
  rw [onSink, run_bind, run_get]
  rcases equal : act outlet.toSink with ⟨_ | _, sink⟩
  · simp only [equal]
    rfl
  · simp only [equal]
    rfl

private theorem sendsFrom_send (run : ByteRun) :
    SendsFrom Outlet.place (.sink .full) (send run) outlet (.ok ()) [run] outlet :=
  sendsFrom_write fun _ => run_onSink (·.write run) _

private theorem sendsFrom_sendPiece (protocol : Protocol) (outlet : Outlet) (piece : Piece) :
    ∃ sent, SendsFrom Outlet.place (.sink .full) (sendPiece protocol piece piece.size) outlet
      (.ok ()) sent outlet ∧ ByteRun.join sent = piece.bytes protocol := by
  rw [sendPiece, Piece.bytes]
  split
  · refine ⟨_, (sendsFrom_send _).bind_ok ((sendsFrom_send _).bind_ok (sendsFrom_send _)), ?_⟩
    simp [ByteRun.join, Opcode.bytes, Piece.bytes_run]
  · exact ⟨_, sendsFrom_send _, ByteRun.join_singleton _⟩

private theorem sendsFrom_sendHeader (protocol : Protocol) (outlet : Outlet) :
    ∃ sent, SendsFrom Outlet.place (.sink .full) (sendHeader protocol) outlet (.ok ()) sent outlet ∧
      ByteRun.join sent = Graph.header protocol := by
  rw [sendHeader, Graph.header]
  split
  · exact ⟨_, sendsFrom_send _, ByteRun.join_singleton _⟩
  · exact ⟨[], sendsFrom_quiet fun _ => rfl, rfl⟩

/-! ## Traces as they are delivered -/

/-- What is there of a stream is the piece that is not complete. -/
structure Holds (draft : Draft) (pieces : Pieces) : Prop where
  opened : draft.opened = pieces.opened
  openSize : draft.openSize = pieces.openSize

private theorem delivered_close (pieces : Pieces) : Graph.delivered protocol pieces.close =
    Graph.delivered protocol pieces ++
      if pieces.opened = [] then [] else Piece.bytes protocol pieces.opened.reverse := by
  split
  · rename_i empty
    rw [Pieces.close, if_pos empty, List.append_nil]
  · rename_i nonempty
    rw [Graph.delivered, Pieces.toList_close nonempty, List.flatMap_append, List.flatMap_singleton,
      ← List.append_assoc]
    rfl

/-- Sending the open piece closes it. -/
private theorem sendsFrom_commit (protocol : Protocol) {pieces : Pieces}
    (holds : Holds outlet.toDraft pieces)
    (size : pieces.openSize = Piece.size pieces.opened.reverse) :
    ∃ sent after,
      SendsFrom Outlet.place (.sink .full) (commit protocol) outlet (.ok ()) sent after ∧
        after.memo = outlet.memo ∧ Holds after.toDraft pieces.close ∧
          Graph.delivered protocol pieces.close =
            Graph.delivered protocol pieces ++ ByteRun.join sent := by
  rw [delivered_close]
  by_cases empty : pieces.opened = []
  · refine ⟨[], outlet, sendsFrom_look ?_, rfl, ?_, ?_⟩
    · rw [if_pos (holds.opened.trans empty)]
      exact sendsFrom_quiet fun _ => rfl
    · rwa [Pieces.close, if_pos empty]
    · rw [if_pos empty]
      rfl
  · rcases sendsFrom_sendPiece protocol outlet pieces.opened.reverse with
      ⟨sent, sends, bytes⟩
    refine ⟨sent ++ [], { outlet with opened := [], openSize := 0 }, sendsFrom_look ?_, rfl, ?_, ?_⟩
    · rw [if_neg fun none => empty (holds.opened.symm.trans none), holds.opened, holds.openSize,
        size]
      exact sends.bind_ok (sendsFrom_modify _)
    · rw [Pieces.close, if_neg empty]
      exact ⟨rfl, rfl⟩
    · rw [if_neg empty, List.append_nil, bytes]

/-- A writer that holds what is there of the stream of a trace. -/
structure Keeps (outlet : Outlet) (trace : Trace) : Prop where
  memo : outlet.memo = trace.memo
  holds : Holds outlet.toDraft (Pieces.ofEvents trace.events)

/-- How an encoding comes out for a writer. -/
def result : Trace.Outcome → Except DumpError Unit
  | .complete _ => .ok ()
  | .failed error _ => .error (.encode error)

/-- A part delivers what is written on the way from a trace to an outcome. -/
def Delivers (protocol : Protocol) (part : DumpM Unit) (trace : Trace) (outcome : Trace.Outcome) :
    Prop :=
  ∀ outlet, Keeps outlet trace → ∃ sent after,
    SendsFrom Outlet.place (.sink .full) part outlet (result outcome) sent after ∧
      Keeps after outcome.trace ∧
        Graph.delivered protocol (Pieces.ofEvents outcome.trace.events) =
          Graph.delivered protocol (Pieces.ofEvents trace.events) ++ ByteRun.join sent

private theorem delivers_pure (trace : Trace) :
    Delivers protocol (pure ()) trace (.complete trace) :=
  fun outlet keeps => ⟨[], outlet, sendsFrom_quiet fun _ => rfl, keeps, (List.append_nil _).symm⟩

private theorem delivers_throw (error : EncodeError) (trace : Trace) :
    Delivers protocol (throw (.encode error)) trace (.failed error trace) :=
  fun outlet keeps => ⟨[], outlet, sendsFrom_quiet fun _ => rfl, keeps, (List.append_nil _).symm⟩

private theorem delivers_bind {part : DumpM Unit} {next : Unit → DumpM Unit}
    {outcome : Trace.Outcome} (first : Delivers protocol part trace (.complete middle))
    (second : Delivers protocol (next ()) middle outcome) :
    Delivers protocol (part >>= next) trace outcome := by
  intro outlet keeps
  rcases first outlet keeps with ⟨sent, between, sends, keepsBetween, delivered⟩
  rcases second between keepsBetween with ⟨more, after, sendsMore, keepsAfter, deliveredMore⟩
  refine ⟨sent ++ more, after, sends.bind_ok sendsMore, keepsAfter, ?_⟩
  rw [deliveredMore, ByteRun.join_append, ← List.append_assoc, ← delivered]
  rfl

private theorem delivers_bind_failed {part : DumpM Unit} {next : Unit → DumpM Unit}
    {error : EncodeError} (failed : Delivers protocol part trace (.failed error middle)) :
    Delivers protocol (part >>= next) trace (.failed error middle) := by
  intro outlet keeps
  rcases failed outlet keeps with ⟨sent, after, sends, others⟩
  exact ⟨sent, after, sends.bind_error, others⟩

private theorem delivers_look {next : Draft → DumpM Unit} {outcome : Trace.Outcome}
    (each : ∀ draft : Draft, draft.memo = trace.memo →
      Delivers protocol (next draft) trace outcome) :
    Delivers protocol (onDraft get >>= next) trace outcome := by
  intro outlet keeps
  rcases each outlet.toDraft keeps.memo outlet keeps with ⟨sent, after, sends, others⟩
  exact ⟨sent, after, sendsFrom_look sends, others⟩

private theorem Keeps.record {event : Event} (memo : outlet.memo = trace.memo)
    (holds : Holds outlet.toDraft ((Pieces.ofEvents trace.events).add event)) :
    Keeps outlet (trace.record event) := by
  refine ⟨memo, ?_⟩
  rwa [Trace.events_record, Pieces.ofEvents_concat]

private theorem delivers_deliver (event : Event) (trace : Trace) :
    Delivers protocol (deliver protocol event) trace (.complete (trace.record event)) := by
  intro outlet keeps
  have cut := Pieces.cut_ofEvents trace.events
  have ⟨memo, holds⟩ := keeps
  simp only [Trace.Outcome.trace, Trace.events_record, Pieces.ofEvents_concat]
  cases event with
  | begins id =>
      exact ⟨[], outlet, sendsFrom_quiet fun _ => rfl, .record memo holds, (List.append_nil _).symm⟩
  | op opcode =>
      let after : Outlet :=
        { outlet with
          opened := opcode :: outlet.opened
          openSize := outlet.openSize + opcode.size }
      have keepsAfter : Keeps after (trace.record (.op opcode)) :=
        .record memo ⟨congrArg (opcode :: ·) holds.opened,
          congrArg (· + opcode.size) holds.openSize⟩
      refine ⟨[], after, ?_, keepsAfter, (List.append_nil _).symm⟩
      rw [deliver]
      exact sendsFrom_modify _
  | split =>
      rw [Pieces.add]
      by_cases small : (Pieces.ofEvents trace.events).openSize < Piece.targetSize
      · have keepsSplit : Keeps outlet (trace.record .split) := by
          refine .record memo ?_
          rwa [Pieces.add, if_pos small]
        rw [if_pos small]
        refine ⟨[], outlet, sendsFrom_look ?_, keepsSplit, (List.append_nil _).symm⟩
        rw [holds.openSize, if_pos small]
        exact sendsFrom_quiet fun _ => rfl
      · rw [if_neg small]
        rcases sendsFrom_commit protocol holds cut.size with
          ⟨sent, after, sends, same, closed, delivered⟩
        refine ⟨sent, after, sendsFrom_look ?_, Keeps.record (same.trans memo) ?_, delivered⟩
        · rw [holds.openSize, if_neg small]
          exact sends
        · rwa [Pieces.add, if_neg small]

private theorem delivers_forM (protocol : Protocol) (events : List Event) (trace : Trace) :
    Delivers protocol (events.forM (deliver protocol)) trace
      (.complete (events.foldl Trace.record trace)) := by
  induction events generalizing trace with
  | nil => exact delivers_pure trace
  | cons event rest induction =>
      exact delivers_bind (delivers_deliver event trace) (induction (trace.record event))

private theorem foldl_record (events : List Event) (trace : Trace) :
    events.foldl Trace.record trace =
      { trace with reversed := events.reverse ++ trace.reversed } := by
  induction events generalizing trace with
  | nil => rfl
  | cons event rest induction =>
      rw [List.foldl_cons, induction]
      simp [Trace.record]

private theorem delivers_record {act : Trace → Trace} (isLocal : Trace.Local act) (trace : Trace) :
    Delivers protocol (record protocol act) trace (.complete (act trace)) := by
  intro outlet keeps
  have same := isLocal trace
  have told := delivers_forM protocol (act { memo := trace.memo }).events
    { trace with memo := (act { memo := trace.memo }).memo }
  have whole : (act { memo := trace.memo }).events.foldl Trace.record
      { trace with memo := (act { memo := trace.memo }).memo } = act trace := by
    rw [foldl_record, same]
    simp [Trace.behind, Trace.events]
  rw [whole] at told
  have keepsMemo : Keeps { outlet with memo := (act { memo := trace.memo }).memo }
      { trace with memo := (act { memo := trace.memo }).memo } :=
    ⟨rfl, keeps.holds.opened, keeps.holds.openSize⟩
  rcases told _ keepsMemo with ⟨sent, after, sends, others⟩
  refine ⟨sent, after, (sendsFrom_onDraft _).bind_ok ?_, others⟩
  rw [← keeps.memo] at sends
  exact sends

private theorem delivers_perform {write : NodeId → Trace → Trace.Outcome}
    {writeNode : NodeId → DumpM Unit}
    (writes : ∀ id trace, Delivers protocol (writeNode id) trace (write id trace)) (step : Step)
    (trace : Trace) :
    Delivers protocol (perform protocol writeNode step) trace
      (trace.perform protocol write step) := by
  cases step with
  | split => exact delivers_record (.record _) trace
  | op opcode => exact delivers_record (.emit _) trace
  | remember key => exact delivers_record (.remember _) trace
  | sharedText content => exact delivers_record (.sharedText _) trace
  | callable callable => exact delivers_record (.callable _) trace
  | endTuple id count => exact delivers_record (.endTuple _ _) trace
  | node id => exact writes id trace

private theorem delivers_performAll {write : NodeId → Trace → Trace.Outcome}
    {writeNode : NodeId → DumpM Unit}
    (writes : ∀ id trace, Delivers protocol (writeNode id) trace (write id trace))
    (steps : List Step) (trace : Trace) :
    Delivers protocol (steps.forM (perform protocol writeNode)) trace
      (Trace.performAll protocol write steps trace) := by
  induction steps generalizing trace with
  | nil => exact delivers_pure trace
  | cons step rest induction =>
      have first := delivers_perform writes step trace
      rw [Trace.performAll]
      cases performed : trace.perform protocol write step with
      | complete middle =>
          rw [performed] at first
          exact delivers_bind first (induction middle)
      | failed error middle =>
          rw [performed] at first
          exact delivers_bind_failed first

private theorem delivers_writeNode (graph : Graph) (protocol : Protocol) (depth : Nat) (id : NodeId)
    (trace : Trace) :
    Delivers protocol (writeNode graph protocol depth id) trace
      (Trace.writeNode graph protocol depth id trace) := by
  induction depth generalizing id trace with
  | zero => exact delivers_throw .endless trace
  | succ depth induction =>
      rw [Trace.writeNode_succ, Trace.enter]
      apply delivers_bind (delivers_deliver (.begins id) trace)
      apply delivers_look
      intro draft memo
      rw [memo, Trace.memo_record]
      cases trace.memo.find? (.node id) with
      | some slot => exact delivers_record (.emit _) _
      | none =>
          cases graph.node? id with
          | none => exact delivers_throw _ _
          | some node =>
              cases plan : protocol.plan id node with
              | error error =>
                  simp only [plan]
                  exact delivers_throw _ _
              | ok steps =>
                  simp only [plan]
                  exact delivers_performAll induction steps _

/-! ## Whole streams -/

/-- How an encoding comes out for a writer. -/
def outcome (encoded : Encoded) : Except DumpError Unit :=
  match encoded.error? with
  | none => .ok ()
  | some error => .error (.encode error)

/-- A part delivers what is left to deliver behind a trace. -/
def Finishes (protocol : Protocol) (part : DumpM Unit) (trace : Trace) (encoded : Encoded) : Prop :=
  ∀ outlet, Keeps outlet trace → ∃ sent after,
    SendsFrom Outlet.place (.sink .full) part outlet (outcome encoded) sent after ∧
      encoded.bytes = Graph.delivered protocol (Pieces.ofEvents trace.events) ++ ByteRun.join sent

private theorem finishes_commit (trace : Trace) : Finishes protocol (commit protocol) trace
    { bytes := Graph.delivered protocol (Pieces.ofEvents trace.events).close, error? := none } := by
  intro outlet keeps
  rcases sendsFrom_commit protocol keeps.holds (Pieces.cut_ofEvents trace.events).size with
    ⟨sent, after, sends, -, -, delivered⟩
  exact ⟨sent, after, sends, delivered⟩

private theorem finishes_bind {part : DumpM Unit} {next : Unit → DumpM Unit} {encoded : Encoded}
    (first : Delivers protocol part trace (.complete middle))
    (second : Finishes protocol (next ()) middle encoded) :
    Finishes protocol (part >>= next) trace encoded := by
  intro outlet keeps
  rcases first outlet keeps with ⟨sent, between, sends, keepsBetween, delivered⟩
  rcases second between keepsBetween with ⟨more, after, sendsMore, whole⟩
  refine ⟨sent ++ more, after, sends.bind_ok sendsMore, ?_⟩
  rw [whole, ByteRun.join_append, ← List.append_assoc, ← delivered]
  rfl

private theorem finishes_bind_failed {part : DumpM Unit} {next : Unit → DumpM Unit}
    {error : EncodeError} (failed : Delivers protocol part trace (.failed error middle)) :
    Finishes protocol (part >>= next) trace
      { bytes := Graph.delivered protocol (Pieces.ofEvents middle.events)
        error? := some error } := by
  intro outlet keeps
  rcases failed outlet keeps with ⟨sent, after, sends, -, delivered⟩
  exact ⟨sent, after, sends.bind_error, delivered⟩

private theorem finishes_body (graph : Graph) (protocol : Protocol) (root : NodeId) :
    Finishes protocol (do
      record protocol (·.record .split)
      writeNode graph protocol graph.depthBound root
      deliver protocol (.op .stop)
      commit protocol) {} (graph.encode protocol root) := by
  have writes := delivers_writeNode graph protocol graph.depthBound root Trace.start
  refine finishes_bind (delivers_record (.record .split) {}) ?_
  rw [Graph.encode]
  change Finishes _ _ _ (match Trace.writeNode graph protocol graph.depthBound root Trace.start with
    | .complete trace => _
    | .failed error trace => _)
  cases written : Trace.writeNode graph protocol graph.depthBound root Trace.start with
  | complete trace =>
      rw [written] at writes
      exact finishes_bind writes (finishes_bind (delivers_deliver (.op .stop) trace)
        (finishes_commit _))
  | failed error trace =>
      rw [written] at writes
      exact finishes_bind_failed writes

/-- A writer sends the stream of a value, whatever it holds. -/
theorem sendsFrom_stream (graph : Graph) (protocol : Protocol) (root : NodeId) (outlet : Outlet) :
    ∃ sent after, SendsFrom Outlet.place (.sink .full) (stream protocol graph root) outlet
      (outcome (graph.encode protocol root)) sent after ∧
        ByteRun.join sent = (graph.encode protocol root).bytes := by
  let cleared : Outlet := { outlet with toDraft := {} }
  have clears : SendsFrom Outlet.place (.sink .full) (onDraft (set ({} : Draft))) outlet (.ok ()) []
      cleared := sendsFrom_onDraft _
  rcases sendsFrom_sendHeader protocol cleared with ⟨header, heads, told⟩
  rcases finishes_body graph protocol root cleared ⟨rfl, rfl, rfl⟩ with ⟨body, after, sends, whole⟩
  refine ⟨header ++ body, after, clears.bind_ok (heads.bind_ok sends), ?_⟩
  rw [whole, ByteRun.join_append, told]
  exact congrArg (· ++ ByteRun.join body) (List.append_nil _).symm

end Dump

end PickleTrial
