import PickleTrial.Encoding.Plan

/-! The trace of an encoding: the opcodes in order, with the places where nodes begin and where a
frame may end. A node that is in the memo is fetched from it; any other is written by its plan.
Lists and dicts are remembered before their items are written, so a list within itself is fetched
there. A tuple is remembered when it is complete; one that was completed while its items were
written is dropped again and fetched. -/

namespace PickleTrial

inductive Event
  | split
  | begins (id : NodeId)
  | op (opcode : Opcode)
deriving DecidableEq

/-- What has been written so far. -/
structure Trace where
  reversed : List Event := []
  memo : Memo := {}

namespace Trace

def events (trace : Trace) : List Event :=
  trace.reversed.reverse

def record (trace : Trace) (event : Event) : Trace :=
  { trace with reversed := event :: trace.reversed }

def emit (trace : Trace) (opcode : Opcode) : Trace :=
  trace.record (.op opcode)

def emitAll (trace : Trace) (opcodes : List Opcode) : Trace :=
  opcodes.foldl emit trace

def remember (trace : Trace) (protocol : Protocol) (key : Option MemoKey) : Trace :=
  { trace.emit (protocol.putOpcode trace.memo.next) with memo := trace.memo.take key }

def fetchOr (trace : Trace) (protocol : Protocol) (key : MemoKey) (write : Trace → Trace) :
    Trace :=
  match trace.memo.find? key with
  | some slot => trace.emit (protocol.getOpcode slot)
  | none => write trace

def freshText (trace : Trace) (protocol : Protocol) (content : String) : Trace :=
  (trace.emit (protocol.textOpcode content)).remember protocol none

def sharedText (trace : Trace) (protocol : Protocol) (content : String) : Trace :=
  trace.fetchOr protocol (.text content) fun trace =>
    (trace.emit (protocol.textOpcode content)).remember protocol (some (.text content))

/-- The names of a callable as two strings, from protocol 4 on. -/
def stackedNames (trace : Trace) (protocol : Protocol) (callable : Callable) : Trace :=
  let trace := trace.record .split
  let trace :=
    if callable.isFunction then trace.freshText protocol callable.module
    else trace.sharedText protocol callable.module
  let trace := trace.record .split
  (trace.freshText protocol callable.name).emit .stackGlobal

/-- The names of a callable as two lines. -/
def globalOpcode (protocol : Protocol) (callable : Callable) : Opcode :=
  let module := if protocol.version < 3 then callable.oldModule else callable.module
  .global (LineEscaped.ascii module.toList) (LineEscaped.ascii callable.name.toList)

def callable (trace : Trace) (protocol : Protocol) (callable : Callable) : Trace :=
  trace.fetchOr protocol (.callable callable) fun trace =>
    let trace :=
      if 4 ≤ protocol.version then trace.stackedNames protocol callable
      else trace.emit (globalOpcode protocol callable)
    trace.remember protocol (some (.callable callable))

/-- Make a tuple of the items on the stack, or drop them where the tuple is there already. -/
def endTuple (trace : Trace) (protocol : Protocol) (id : NodeId) (count : Nat) : Trace :=
  match trace.memo.find? (.node id) with
  | some slot =>
      (trace.emitAll (protocol.dropOpcodes count)).emit (protocol.getOpcode slot)
  | none => (trace.emit (protocol.tupleOpcode count)).remember protocol (some (.node id))

/-- How far an encoding came. -/
inductive Outcome
  | complete (trace : Trace)
  | failed (error : EncodeError) (trace : Trace)

def perform (protocol : Protocol) (writeNode : NodeId → Trace → Outcome) (trace : Trace) :
    Step → Outcome
  | .split => .complete (trace.record .split)
  | .op opcode => .complete (trace.emit opcode)
  | .remember key => .complete (trace.remember protocol key)
  | .sharedText content => .complete (trace.sharedText protocol content)
  | .callable callable => .complete (trace.callable protocol callable)
  | .endTuple id count => .complete (trace.endTuple protocol id count)
  | .node id => writeNode id trace

def performAll (protocol : Protocol) (writeNode : NodeId → Trace → Outcome) :
    List Step → Trace → Outcome
  | [], trace => .complete trace
  | step :: rest, trace =>
      match trace.perform protocol writeNode step with
      | .complete trace => performAll protocol writeNode rest trace
      | .failed error trace => .failed error trace

/-- Write the node at a position within as many nodes at most. -/
def writeNode (graph : Graph) (protocol : Protocol) :
    (depth : Nat) → NodeId → Trace → Outcome
  | 0, _, trace => .failed .endless trace
  | depth + 1, id, trace =>
      let trace := trace.record (.begins id)
      match trace.memo.find? (.node id) with
      | some slot => .complete (trace.emit (protocol.getOpcode slot))
      | none =>
          match graph.node? id with
          | none => .failed (.danglingNode id) trace
          | some node =>
              match protocol.plan id node with
              | .error error => .failed error trace
              | .ok steps => performAll protocol (writeNode graph protocol depth) steps trace

end Trace

namespace Graph

/-- More nodes than lie within each other in any encoding that ends: a list or dict lies within
others once, and fewer nodes than the graph has lie between two of them. -/
def depthBound (graph : Graph) : Nat :=
  (graph.size + 1) * (graph.size + 1)

def trace (graph : Graph) (protocol : Protocol) (root : NodeId) : Trace.Outcome :=
  Trace.writeNode graph protocol graph.depthBound root ({ : Trace }.record .split)

end Graph

end PickleTrial
