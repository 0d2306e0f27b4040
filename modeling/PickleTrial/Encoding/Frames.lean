import PickleTrial.Encoding.Trace

/-! The pieces in which a trace is delivered. A piece is complete at the first place where it may
end and holds 64 KiB; the last piece is what is left at the end. From protocol 4 on a piece of
four bytes or more stands in a frame that tells its length. -/

namespace PickleTrial

/-- The size from which on a piece is complete. -/
def Piece.targetSize : Nat := 65536

/-- The size from which on a piece stands in a frame. -/
def Piece.frameSize : Nat := 4

/-- The opcodes delivered together. -/
abbrev Piece := List Opcode

namespace Piece

def content (piece : Piece) : Bytes :=
  piece.flatMap Opcode.bytes

def size (piece : Piece) : Nat :=
  (piece.map Opcode.size).foldr (· + ·) 0

theorem length_content (piece : Piece) : piece.content.length = piece.size := by
  rw [content, List.length_flatMap, funext Opcode.length_bytes]
  rfl

/-- The bytes of a piece, with their number. -/
def run (piece : Piece) : ByteRun :=
  ⟨.mk fun _ => piece.content, piece.size, piece.length_content⟩

@[simp] theorem bytes_run (piece : Piece) : piece.run.bytes = piece.content :=
  rfl

/-- A piece as it is delivered. -/
def bytes (protocol : Protocol) (piece : Piece) : Bytes :=
  if 4 ≤ protocol.version ∧ frameSize ≤ piece.size then
    (Opcode.frame piece.size).bytes ++ piece.content
  else piece.content

end Piece

/-- The pieces so far. -/
structure Pieces where
  /-- Complete pieces, latest first. -/
  complete : List Piece := []
  /-- The opcodes of the piece that is not complete, latest first. -/
  opened : List Opcode := []
  /-- The size of the piece that is not complete. -/
  openSize : Nat := 0

namespace Pieces

def close (pieces : Pieces) : Pieces :=
  if pieces.opened = [] then pieces else { complete := pieces.opened.reverse :: pieces.complete }

def add (pieces : Pieces) : Event → Pieces
  | .split => if pieces.openSize < Piece.targetSize then pieces else pieces.close
  | .begins _ => pieces
  | .op opcode =>
      { pieces with
        opened := opcode :: pieces.opened
        openSize := pieces.openSize + opcode.size }

def ofEvents (events : List Event) : Pieces :=
  events.foldl add {}

def toList (pieces : Pieces) : List Piece :=
  pieces.complete.reverse

end Pieces

end PickleTrial
