import PickleTrial.Encoding.Frames

/-! Values as streams: the header, the opcodes of the value, and the end. -/

namespace PickleTrial

/-- What there is to deliver of an encoding. One that fails has delivered its header and the
pieces complete by then. -/
structure Encoded where
  bytes : Bytes
  error? : Option EncodeError

namespace Graph

/-- The stream header tells the protocol, from protocol 2 on. -/
def header (protocol : Protocol) : Bytes :=
  if 2 ≤ protocol.version then (Opcode.proto protocol.version).bytes else []

def delivered (protocol : Protocol) (pieces : Pieces) : Bytes :=
  header protocol ++ pieces.toList.flatMap (Piece.bytes protocol)

/-- The stream of the value at a position. -/
def encode (graph : Graph) (protocol : Protocol) (root : NodeId) : Encoded :=
  match graph.trace protocol root with
  | .complete trace =>
      { bytes := delivered protocol (Pieces.ofEvents (trace.emit .stop).events).close
        error? := none }
  | .failed error trace =>
      { bytes := delivered protocol (Pieces.ofEvents trace.events)
        error? := some error }

/-- The stream of the value at a position, whole or not at all. -/
def stream (graph : Graph) (protocol : Protocol) (root : NodeId) : Except EncodeError Bytes :=
  let encoded := graph.encode protocol root
  match encoded.error? with
  | none => .ok encoded.bytes
  | some error => .error error

/-- The stream of the value at a position at a protocol that may not exist. -/
def pickle (graph : Graph) (version : Nat) (root : NodeId) : Except EncodeError Bytes :=
  match Protocol.of? version with
  | some protocol => graph.stream protocol root
  | none => .error (.unsupportedProtocol version)

/-- A list within itself. -/
example : (pickle ⟨#[.list [0]]⟩ 2 0).toOption =
    some [0x80, 0x02, 0x5d, 0x71, 0x00, 0x68, 0x00, 0x61, 0x2e] := by decide +kernel

/-- A tuple within its own list is dropped and fetched. -/
example : (pickle ⟨#[.tuple [1], .list [0]]⟩ 2 0).toOption =
    some [0x80, 0x02, 0x5d, 0x71, 0x00, 0x68, 0x00, 0x85, 0x71, 0x01, 0x61, 0x30, 0x68, 0x01,
      0x2e] := by decide +kernel

end Graph

end PickleTrial
