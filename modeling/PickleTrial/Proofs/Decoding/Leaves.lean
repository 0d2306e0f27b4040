import PickleTrial.Proofs.Decoding.Isomorphism
import PickleTrial.Proofs.Encoding.Termination

/-! Values that hold no other values, each as the stream of its own. -/

namespace PickleTrial

open Machine (Object)

/-! ## Short streams -/

private theorem Opcode.withinLimits_of_length_lt {opcode : Opcode} (protocol : Protocol)
    (inside : opcode.surrounds = false) (short : opcode.bytes.length < 2 ^ 32) :
    opcode.WithinLimits protocol := by
  cases opcode <;>
    simp only [WithinLimits, bytes, arguments, counted, List.length_cons, List.length_append,
      Utf8.length_encode] at short ⊢
  case frame => cases inside
  all_goals omega

private theorem Stream.length_le_length_bytes (opcodes : List Opcode) :
    opcodes.length ≤ (bytes opcodes).length := by
  induction opcodes with
  | nil => exact Nat.zero_le _
  | cons opcode rest induction =>
      simp only [bytes_cons, Opcode.bytes, List.length_append, List.length_cons]
      omega

/-- A protocol has room for what is in a stream that is itself short. -/
private theorem Trace.withinLimits_delivery {trace : Trace} {protocol : Protocol}
    (emitted : ∀ opcode ∈ trace.opcodes, opcode.Emitted protocol)
    (short : (Stream.bytes trace.opcodes).length < 2 ^ 32) :
    ∀ opcode ∈ trace.delivery protocol, opcode.WithinLimits protocol := by
  have inTrace (opcode : Opcode) (member : opcode ∈ trace.opcodes) :
      opcode.WithinLimits protocol := by
    have part : opcode.bytes.length ≤ (Stream.bytes trace.opcodes).length := by
      rw [Stream.bytes, List.flatMap_def]
      exact (List.sublist_flatten_of_mem (List.mem_map_of_mem member)).length_le
    exact opcode.withinLimits_of_length_lt protocol (emitted opcode member).inside
      (Nat.lt_of_le_of_lt part short)
  intro opcode member
  rcases List.mem_append.1 member with inHeading | inPieces
  · split at inHeading
    · rw [List.mem_singleton.1 inHeading]
      trivial
    · cases inHeading
  · rcases List.mem_flatMap.1 inPieces with ⟨piece, inside, framed⟩
    have inPiece (opcode : Opcode) (member : opcode ∈ piece) : opcode.WithinLimits protocol := by
      have flat := List.mem_flatten_of_mem inside member
      rw [trace.flatten_pieces] at flat
      rcases List.mem_append.1 flat with earlier | stop
      · exact inTrace opcode earlier
      · rw [List.mem_singleton.1 stop]
        trivial
    rw [Piece.framed] at framed
    split at framed
    · rcases List.mem_cons.1 framed with rfl | member
      · -- A frame tells the length of a part of what it stands in.
        have whole : piece.content.length ≤ (Stream.bytes trace.pieces.flatten).length :=
          ((List.sublist_flatten_of_mem inside).flatMap Opcode.bytes).length_le
        rw [trace.flatten_pieces, Piece.length_content, Stream.bytes_append,
          List.length_append] at whole
        have stop : (Stream.bytes [.stop]).length = 1 := rfl
        simp only [Opcode.WithinLimits]
        omega
      · exact inPiece opcode member
    · exact inPiece opcode framed

namespace Graph

variable {graph : Graph} {protocol : Protocol} {root : NodeId} {node : Node}

/-- The machine makes of the stream of a value without other values in it the scalar or the object
that the value is read as. -/
theorem exists_loaded_of_leaf {bytes : Bytes} {trace : Trace}
    (present : graph.node? root = some node) (leaf : node.children = [])
    (streamed : graph.Streamed protocol root bytes trace)
    (limits : graph.WithinLimits protocol root) (room : trace.opcodes.length ≤ 2 ^ 32) :
    ∃ value heap, Machine.load? bytes = some (value, heap) ∧
      (node.takesSlot = false → node.scalar? protocol = some value) ∧
      (node.takesSlot → ∃ address object, value = .object address ∧
        heap[address]? = some object ∧ node.object? protocol [] = some object) := by
  have slots : trace.memo.next ≤ 2 ^ 32 := by
    rw [← streamed.grows.count_stores rfl]
    exact List.countP_le_length.trans room
  rcases Stage.exists_loaded streamed limits slots with
      ⟨machine, value, loaded, follows, settled, denotes⟩
  refine ⟨value, machine.heap, loaded, denotes.scalar present, fun takesSlot => ?_⟩
  rcases denotes.exists_shown present settled takesSlot with
      ⟨address, object, isObject, found, other, values, presentOther, -, denote, shows⟩
  cases present.symm.trans presentOther
  rw [leaf] at denote
  cases denote
  exact ⟨address, object, isObject, found, shows⟩

/-- The object of a value whose stream is short. -/
theorem exists_load?_of_leaf {trace : Trace} (present : graph.node? root = some node)
    (takesSlot : node.takesSlot) (leaf : node.children = [])
    (traced : graph.trace protocol root = .complete trace)
    (short : (Stream.bytes trace.opcodes).length < 2 ^ 32) :
    ∃ bytes address heap object, graph.pickle protocol.version root = .ok bytes ∧
      Machine.load? bytes = some (.object address, heap) ∧ heap[address]? = some object ∧
      node.object? protocol [] = some object := by
  have encoded : graph.pickle protocol.version root =
      .ok (Stream.bytes (trace.delivery protocol)) := by
    rw [pickle_eq, traced]
  rcases exists_streamed encoded with ⟨found, streamed⟩
  cases traced.symm.trans streamed.traced
  have within : graph.WithinLimits protocol root := by
    rw [WithinLimits, streamed.opcodes]
    exact Trace.withinLimits_delivery streamed.emitted short
  have room := (Stream.length_le_length_bytes trace.opcodes).trans short.le
  rcases exists_loaded_of_leaf present leaf streamed within room with
      ⟨value, heap, loaded, -, isObject⟩
  rcases isObject takesSlot with ⟨address, object, rfl, found, shows⟩
  exact ⟨_, address, heap, object, encoded, loaded, found, shows⟩

end Graph

end PickleTrial
