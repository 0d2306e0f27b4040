import PickleTrial.Encoding.Encoded

/-! Where streams are delivered: a sink that keeps the bytes it is given and may have room for so
many only, and a writer that delivers one stream after the other to a sink. A writer delivers while
it encodes, so a stream breaks off where the value cannot be encoded further or the sink is full. -/

namespace PickleTrial

inductive SinkError
  | full
  | flushFailed
deriving DecidableEq

def SinkError.message : SinkError → String
  | full => "writer full"
  | flushFailed => "flush failed"

structure Sink where
  /-- The most bytes there is room for. -/
  limit : Option Nat := none
  /-- Whether the flush behind so many others fails. -/
  flushFails : Nat → Bool := fun _ => false
  /-- The runs of bytes kept, latest first. -/
  kept : List ByteRun := []
  size : Nat := 0
  flushes : Nat := 0

namespace Sink

def contents (sink : Sink) : Bytes :=
  ByteRun.join sink.kept.reverse

def keep (sink : Sink) (run : ByteRun) : Sink :=
  { sink with kept := run :: sink.kept, size := sink.size + run.length }

/-- Keep a run of bytes. Where there is not room for all of it the first bytes are kept. -/
def write (sink : Sink) (run : ByteRun) : Except SinkError Unit × Sink :=
  match sink.limit with
  | none => (.ok (), sink.keep run)
  | some limit =>
      if sink.size + run.length ≤ limit then (.ok (), sink.keep run)
      else (.error .full, sink.keep (run.take (limit - sink.size)))

def flush (sink : Sink) : Except SinkError Unit × Sink :=
  (if sink.flushFails sink.flushes then .error .flushFailed else .ok (),
    { sink with flushes := sink.flushes + 1 })

end Sink

/-- Why a stream was not delivered. -/
inductive DumpError
  | encode (error : EncodeError)
  | sink (error : SinkError)
deriving DecidableEq

def DumpError.message : DumpError → String
  | encode error => error.message
  | sink error => error.message

/-- What is there of a stream that is being delivered. All of it stays when the stream breaks
off. -/
structure Draft where
  memo : Memo := {}
  /-- The opcodes that are not delivered yet, latest first. -/
  opened : List Opcode := []
  /-- The size of these opcodes. -/
  openSize : Nat := 0

structure Outlet extends Sink, Draft

abbrev DumpM := ExceptT DumpError (StateM Outlet)

namespace Dump

def onDraft {α : Type} (act : StateM Draft α) : DumpM α :=
  modifyGet fun outlet =>
    let (value, draft) := act.run outlet.toDraft
    (value, { outlet with toDraft := draft })

def onSink (act : Sink → Except SinkError Unit × Sink) : DumpM Unit := do
  let outlet ← get
  let (result, sink) := act outlet.toSink
  set { outlet with toSink := sink }
  match result with
  | .ok () => return
  | .error error => throw (.sink error)

def send (run : ByteRun) : DumpM Unit :=
  onSink (·.write run)

def flush : DumpM Unit :=
  onSink Sink.flush

/-- Send a piece of some size in its frame, if it stands in one. -/
def sendPiece (protocol : Protocol) (piece : Piece) (size : Nat) : DumpM Unit :=
  if 4 ≤ protocol.version ∧ Piece.frameSize ≤ size then do
    send (.ofBytes [(Opcode.frame size).code])
    send (.ofBytes (Opcode.frame size).arguments)
    send piece.run
  else send piece.run

/-- Send the opcodes that are not delivered yet as a piece. -/
def commit (protocol : Protocol) : DumpM Unit := do
  let draft ← onDraft get
  if draft.opened = [] then return
  else
    sendPiece protocol draft.opened.reverse draft.openSize
    onDraft (modify fun draft => { draft with opened := [], openSize := 0 })

def deliver (protocol : Protocol) : Event → DumpM Unit
  | .split => do
      let draft ← onDraft get
      if draft.openSize < Piece.targetSize then return
      else commit protocol
  | .begins _ => return
  | .op opcode =>
      onDraft (modify fun draft =>
        { draft with
          opened := opcode :: draft.opened
          openSize := draft.openSize + opcode.size })

/-- Do to the memo what is done to that of a trace, and deliver what is recorded meanwhile. -/
def record (protocol : Protocol) (act : Trace → Trace) : DumpM Unit := do
  let trace ← onDraft fun draft =>
    let trace := act { memo := draft.memo }
    (trace, { draft with memo := trace.memo })
  trace.events.forM (deliver protocol)

def perform (protocol : Protocol) (writeNode : NodeId → DumpM Unit) : Step → DumpM Unit
  | .split => record protocol (·.record .split)
  | .op opcode => record protocol (·.emit opcode)
  | .remember key => record protocol (·.remember protocol key)
  | .sharedText content => record protocol (·.sharedText protocol content)
  | .callable callable => record protocol (·.callable protocol callable)
  | .endTuple id count => record protocol (·.endTuple protocol id count)
  | .node id => writeNode id

/-- Write the node at a position within as many nodes at most. -/
def writeNode (graph : Graph) (protocol : Protocol) : (depth : Nat) → NodeId → DumpM Unit
  | 0, _ => throw (.encode .endless)
  | depth + 1, id => do
      deliver protocol (.begins id)
      let draft ← onDraft get
      match draft.memo.find? (.node id) with
      | some slot => record protocol (·.emit (protocol.getOpcode slot))
      | none =>
          match graph.node? id with
          | none => throw (.encode (.danglingNode id))
          | some node =>
              match protocol.plan id node with
              | .error error => throw (.encode error)
              | .ok steps => steps.forM (perform protocol (writeNode graph protocol depth))

def sendHeader (protocol : Protocol) : DumpM Unit :=
  if 2 ≤ protocol.version then send (.ofBytes (Opcode.proto protocol.version).bytes)
  else return

/-- Deliver the stream of a value up to its end. What is there of an earlier stream is dropped. -/
def stream (protocol : Protocol) (graph : Graph) (root : NodeId) : DumpM Unit := do
  onDraft (set ({} : Draft))
  sendHeader protocol
  record protocol (·.record .split)
  writeNode graph protocol graph.depthBound root
  deliver protocol (.op .stop)
  commit protocol

end Dump

/-- An outlet for the streams of one protocol. -/
structure StreamWriter where
  protocol : Protocol
  sink : Outlet

namespace StreamWriter

/-- Deliver the stream of a value as far as it can be encoded and there is room, and flush the
sink behind a whole stream. -/
def dump (writer : StreamWriter) (graph : Graph) (root : NodeId) :
    Except DumpError Unit × StreamWriter :=
  let part : DumpM Unit := do
    Dump.stream writer.protocol graph root
    Dump.flush
  let (result, sink) := part.run.run writer.sink
  (result, { writer with sink })

end StreamWriter

end PickleTrial
