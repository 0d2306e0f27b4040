import PickleTrial.Proofs.Encoding.Boundaries

/-! Streams in frames. A piece is cut off at the first place where a frame may end and enough has
been written; so every piece but the last is large, each begins with an object, and together they
are what one piece would hold if nothing were cut off. -/

namespace PickleTrial

namespace Piece

/-- A piece in its frame: an opcode, the length of the content in eight bytes, and the content. -/
def inFrame (piece : Piece) : Bytes :=
  0x95 :: Bytes.littleEndian 8 piece.content.length ++ piece.content

private theorem bytes_of_frameSize_le {protocol : Protocol} {piece : Piece}
    (recent : 4 ≤ protocol.version) (large : frameSize ≤ piece.content.length) :
    piece.bytes protocol = piece.inFrame := by
  rw [length_content] at large
  rw [bytes, if_pos ⟨recent, large⟩, inFrame, length_content]
  rfl

private theorem bytes_of_lt_frameSize {protocol : Protocol} {piece : Piece}
    (small : piece.content.length < frameSize) : piece.bytes protocol = piece.content := by
  rw [length_content] at small
  exact if_neg fun framed => Nat.not_le.2 small framed.2

/-- The length in a frame reads back, as long as it fits the eight bytes. -/
private theorem toNat_length_inFrame {piece : Piece} (fits : piece.content.length < 2 ^ 64) :
    Bytes.toNat ((piece.inFrame.drop 1).take 8) = piece.content.length := by
  have length : (Bytes.littleEndian 8 piece.content.length).length = 8 :=
    Bytes.length_littleEndian 8 _
  have taken : (Bytes.littleEndian 8 piece.content.length ++ piece.content).take 8 =
      Bytes.littleEndian 8 piece.content.length := List.take_left' length
  rw [inFrame, List.cons_append, List.drop_succ_cons, List.drop_zero, taken,
    Bytes.toNat_littleEndian,
    Nat.mod_eq_of_lt (show piece.content.length < 256 ^ 8 from fits)]

private theorem size_concat (opcodes : List Opcode) (opcode : Opcode) :
    size (opcodes ++ [opcode]) = size opcodes + opcode.size := by
  rw [← length_content, ← length_content, content, content, List.flatMap_append,
    List.length_append, ← Opcode.length_bytes]
  simp

end Piece

namespace Pieces

theorem toList_close {pieces : Pieces} (nonempty : pieces.opened ≠ []) :
    pieces.close.toList = pieces.toList ++ [pieces.opened.reverse] := by
  rw [close, if_neg nonempty]
  exact List.reverse_cons

/-- How pieces lie in the events of which they are made. -/
structure Cut (events : List Event) (pieces : Pieces) : Prop where
  opcodes : pieces.opcodes = events.filterMap Event.opcode?
  size : pieces.openSize = Piece.size pieces.opened.reverse
  large : ∀ piece ∈ pieces.toList, Piece.targetSize ≤ Piece.size piece
  /-- Where pieces end, a frame may end. -/
  ends : ∀ earlier later, pieces.toList = earlier ++ later → earlier ≠ [] →
    ∃ index : Nat, events[index]? = some .split ∧
      earlier.flatten = (events.take index).filterMap Event.opcode?

namespace Cut

variable {events : List Event} {pieces : Pieces}

private theorem opcodes_add (cut : Cut events pieces) (event : Event) :
    (pieces.add event).opcodes = (events ++ [event]).filterMap Event.opcode? := by
  rw [Pieces.opcodes_add, cut.opcodes, List.filterMap_append]
  cases event <;> rfl

private theorem ends_add (cut : Cut events pieces) (event : Event) {earlier later : List Piece}
    (whole : pieces.toList = earlier ++ later) (nonempty : earlier ≠ []) :
    ∃ index : Nat, (events ++ [event])[index]? = some .split ∧
      earlier.flatten = ((events ++ [event]).take index).filterMap Event.opcode? := by
  rcases cut.ends earlier later whole nonempty with ⟨index, split, flat⟩
  have bound := (List.getElem?_eq_some_iff.1 split).1
  refine ⟨index, ?_, ?_⟩
  · rw [List.getElem?_append_left bound, split]
  · rw [List.take_append_of_le_length (Nat.le_of_lt bound), flat]

/-- A large piece is cut off where a frame may end. -/
private theorem close (cut : Cut events pieces) (large : Piece.targetSize ≤ pieces.openSize) :
    Cut (events ++ [.split]) pieces.close := by
  have nonempty : pieces.opened ≠ [] := by
    intro empty
    rw [cut.size, empty] at large
    exact absurd large (by decide)
  refine ⟨?_, ?_, fun piece member => ?_, fun earlier later whole some => ?_⟩
  · rw [opcodes_close, cut.opcodes, List.filterMap_append]
    exact (List.append_nil _).symm
  · rw [Pieces.close, if_neg nonempty]
    rfl
  · rw [toList_close nonempty] at member
    rcases List.mem_append.1 member with inside | last
    · exact cut.large piece inside
    · rw [List.mem_singleton.1 last, ← cut.size]
      exact large
  · rw [toList_close nonempty] at whole
    rcases List.eq_nil_or_concat later with rfl | ⟨before, last, rfl⟩
    · -- All pieces so far: they hold all opcodes, and end where this one is cut off.
      refine ⟨events.length, by simp, ?_⟩
      rw [List.append_nil] at whole
      rw [← whole, List.take_left, ← cut.opcodes, Pieces.opcodes, List.flatten_append]
      simp
    · rw [List.concat_eq_append, ← List.append_assoc] at whole
      exact cut.ends_add .split (List.append_inj_left' whole rfl) some

theorem add (cut : Cut events pieces) (event : Event) :
    Cut (events ++ [event]) (pieces.add event) := by
  have opcodes := cut.opcodes_add event
  cases event with
  | begins id => exact ⟨opcodes, cut.size, cut.large, fun _ _ => cut.ends_add _⟩
  | op opcode =>
      refine ⟨opcodes, ?_, cut.large, fun _ _ => cut.ends_add _⟩
      simp only [Pieces.add, List.reverse_cons, Piece.size_concat, cut.size]
  | split =>
      simp only [Pieces.add] at opcodes ⊢
      split
      · rename_i small
        rw [if_pos small] at opcodes
        exact ⟨opcodes, cut.size, cut.large, fun _ _ => cut.ends_add _⟩
      · rename_i large
        exact cut.close (Nat.not_lt.1 large)

end Cut

theorem ofEvents_concat (events : List Event) (event : Event) :
    ofEvents (events ++ [event]) = (ofEvents events).add event := by
  rw [ofEvents, List.foldl_append]
  rfl

theorem cut_ofEvents (events : List Event) : Cut events (ofEvents events) := by
  induction events using List.reverseRecOn with
  | nil =>
      refine ⟨rfl, rfl, by simp [ofEvents, toList], fun earlier later whole nonempty => ?_⟩
      exact absurd (List.append_eq_nil_iff.1 whole.symm).1 nonempty
  | append_singleton events event cut =>
      rw [ofEvents_concat]
      exact cut.add event

private theorem complete_foldl {events : List Event} (noSplit : ∀ event ∈ events, event ≠ .split)
    (pieces : Pieces) : (events.foldl add pieces).complete = pieces.complete := by
  induction events generalizing pieces with
  | nil => rfl
  | cons event rest induction =>
      have parts := List.forall_mem_cons.1 noSplit
      rw [List.foldl_cons, induction parts.2]
      cases event with
      | split => exact absurd rfl parts.1
      | begins | op => rfl

/-- Events among which no frame may end make one piece. -/
private theorem toList_close_of_forall_ne {events : List Event}
    (noSplit : ∀ event ∈ events, event ≠ .split)
    (nonempty : events.filterMap Event.opcode? ≠ []) :
    (ofEvents events).close.toList = [events.filterMap Event.opcode?] := by
  have none : (ofEvents events).toList = [] :=
    List.reverse_eq_nil_iff.2 (complete_foldl noSplit {})
  have opened : (ofEvents events).opened.reverse = events.filterMap Event.opcode? := by
    have whole := (cut_ofEvents events).opcodes
    rwa [opcodes, none] at whole
  rw [toList_close, none, opened, List.nil_append]
  rw [← opened] at nonempty
  exact fun empty => nonempty (by rw [empty, List.reverse_nil])

end Pieces

namespace Trace

/-- The pieces of a trace where no frame may end within it. -/
def unsplitPieces (trace : Trace) : List Piece :=
  (Pieces.ofEvents ((trace.emit .stop).events.filter (· ≠ .split))).close.toList

private theorem unsplitPieces_eq (trace : Trace) :
    trace.unsplitPieces = [trace.opcodes ++ [.stop]] := by
  have same : ((trace.emit .stop).events.filter (· ≠ .split)).filterMap Event.opcode? =
      trace.opcodes ++ [.stop] := by
    rw [← opcodes_emit, opcodes, List.filterMap_filter]
    apply List.filterMap_congr
    intro event _
    cases event <;> simp [Event.opcode?]
  have noSplit : ∀ event ∈ (trace.emit .stop).events.filter (· ≠ .split), event ≠ .split := by
    intro event member
    simpa using (List.mem_filter.1 member).2
  have nonempty : ((trace.emit .stop).events.filter (· ≠ .split)).filterMap Event.opcode? ≠ [] := by
    rw [same]
    simp
  rw [unsplitPieces, Pieces.toList_close_of_forall_ne noSplit nonempty, same]

private theorem exists_pieces_eq (trace : Trace) :
    ∃ last, trace.pieces = (Pieces.ofEvents (trace.emit .stop).events).toList ++ [last] := by
  refine ⟨_, Pieces.toList_close ?_⟩
  rw [events_emit, Pieces.ofEvents_concat]
  exact List.cons_ne_nil _ _

end Trace

private theorem Walk.StartsObject.append {protocol : Protocol} {before after : List Opcode}
    (starts : StartsObject protocol before after) (more : List Opcode) :
    StartsObject protocol before (after ++ more) := by
  rcases starts with ⟨walk, object, rest, run, rfl, puts⟩
  exact ⟨walk, object, rest ++ more, run, List.append_assoc _ _ _, puts⟩

namespace Graph

variable {graph : Graph} {protocol : Protocol} {root : NodeId}

/-- The pieces of a stream where no frame may end within it. -/
def unsplit (graph : Graph) (protocol : Protocol) (root : NodeId) : List Piece :=
  match graph.trace protocol root with
  | .complete trace => trace.unsplitPieces
  | .failed _ _ => []

/-- Bytes that are a header and pieces of whole opcodes: large pieces in frames that tell their
lengths, and a last one in a frame unless it is shorter than four bytes. Behind the first, every
piece begins with an object. -/
structure Framed (protocol : Protocol) (bytes : Bytes) (complete : List Piece) (last : Piece) :
    Prop where
  bytes : bytes = 0x80 :: UInt8.ofNat protocol.version :: (complete.flatMap Piece.inFrame ++
    if last.content.length < 4 then last.content else last.inFrame)
  lengths : ∀ piece ∈ complete ++ [last], piece.content.length < 2 ^ 64 →
    Bytes.toNat ((piece.inFrame.drop 1).take 8) = piece.content.length
  large : ∀ piece ∈ complete, 65536 ≤ piece.content.length
  starts : ∀ earlier piece later, complete ++ [last] = earlier ++ piece :: later → earlier ≠ [] →
    Walk.StartsObject protocol earlier.flatten (piece ++ later.flatten)

private theorem startsObject_of_pieces {trace : Trace} (recent : 4 ≤ protocol.version)
    (complete : graph.trace protocol root = .complete trace) {earlier later : List Piece}
    {piece : Piece} (whole : trace.pieces = earlier ++ piece :: later) (nonempty : earlier ≠ []) :
    Walk.StartsObject protocol earlier.flatten (piece ++ later.flatten) := by
  rcases trace.exists_pieces_eq with ⟨last, pieces⟩
  -- The last piece is not among the earlier ones, so these end where a frame may end.
  obtain ⟨between, parts⟩ : ∃ between,
      (Pieces.ofEvents (trace.emit .stop).events).toList = earlier ++ between := by
    rcases List.eq_nil_or_concat (piece :: later) with none | ⟨between, same, whole'⟩
    · cases none
    · refine ⟨between, ?_⟩
      rw [pieces, whole', List.concat_eq_append, ← List.append_assoc] at whole
      exact List.append_inj_left' whole rfl
  rcases (Pieces.cut_ofEvents _).ends earlier between parts nonempty with ⟨index, split, flat⟩
  rw [Trace.events_emit] at split flat
  have bound : index < trace.events.length := by
    by_contra outside
    rw [List.getElem?_append_right (Nat.not_lt.1 outside)] at split
    cases List.mem_singleton.1 (List.mem_of_getElem? split)
  rw [List.getElem?_append_left bound] at split
  rw [List.take_append_of_le_length (Nat.le_of_lt bound)] at flat
  have rest : piece ++ later.flatten =
      (trace.events.drop index).filterMap Event.opcode? ++ [.stop] := by
    have flatWhole := trace.flatten_pieces
    rw [whole, List.flatten_append, List.flatten_cons, flat, trace.opcodes_eq index,
      List.append_assoc] at flatWhole
    exact List.append_cancel_left flatWhole
  rw [rest, flat]
  exact (startsObject_of_split recent complete split).append [.stop]

/-- From protocol 4 on a stream is delivered in frames, and what it holds is what it would hold if
no frame ended before its end. -/
theorem framed_of_pickle {bytes : Bytes} (recent : 4 ≤ protocol.version)
    (encoded : graph.pickle protocol.version root = .ok bytes) :
    ∃ complete last, Framed protocol bytes complete last ∧
      graph.unsplit protocol root = [(complete ++ [last]).flatten] := by
  rcases exists_streamed encoded with ⟨trace, streamed⟩
  rcases trace.exists_pieces_eq with ⟨last, pieces⟩
  have cut := Pieces.cut_ofEvents (trace.emit .stop).events
  have large : ∀ piece ∈ (Pieces.ofEvents (trace.emit .stop).events).toList,
      Piece.targetSize ≤ piece.content.length := by
    intro piece member
    rw [Piece.length_content]
    exact cut.large piece member
  refine ⟨_, last, ⟨?_, fun piece _ => Piece.toNat_length_inFrame, large, ?_⟩, ?_⟩
  · have header : Graph.header protocol = [0x80, UInt8.ofNat protocol.version] :=
      if_pos (by omega)
    have framed : (Pieces.ofEvents (trace.emit .stop).events).toList.flatMap
        (Piece.bytes protocol) =
          (Pieces.ofEvents (trace.emit .stop).events).toList.flatMap Piece.inFrame :=
      List.flatMap_congr fun piece member =>
        Piece.bytes_of_frameSize_le recent (le_trans (by decide) (large piece member))
    have lastBytes : last.bytes protocol =
        if last.content.length < 4 then last.content else last.inFrame := by
      split
      · exact Piece.bytes_of_lt_frameSize ‹_›
      · exact Piece.bytes_of_frameSize_le recent (Nat.not_lt.1 ‹_›)
    rw [streamed.bytes, ← Trace.delivered_eq, delivered, header]
    change _ ++ trace.pieces.flatMap (Piece.bytes protocol) = _
    rw [pieces, List.flatMap_append, framed, List.flatMap_singleton, lastBytes]
    rfl
  · intro earlier piece later whole
    exact startsObject_of_pieces recent streamed.traced (pieces.trans whole)
  · rw [unsplit, streamed.traced, ← pieces, trace.flatten_pieces]
    exact trace.unsplitPieces_eq

/-- A list within itself. -/
theorem framed_selfListed :
    pickle ⟨#[.list [0]]⟩ 4 0 = .ok [0x80, 0x04, 0x95, 0x06, 0x00, 0x00, 0x00, 0x00, 0x00, 0x00,
        0x00, 0x5d, 0x94, 0x68, 0x00, 0x61, 0x2e] ∧
      ∃ complete last, Framed ⟨4, by decide⟩ [0x80, 0x04, 0x95, 0x06, 0x00, 0x00, 0x00, 0x00, 0x00,
          0x00, 0x00, 0x5d, 0x94, 0x68, 0x00, 0x61, 0x2e] complete last ∧
        unsplit ⟨#[.list [0]]⟩ ⟨4, by decide⟩ 0 = [(complete ++ [last]).flatten] :=
  have encoded : pickle ⟨#[.list [0]]⟩ 4 0 = .ok [0x80, 0x04, 0x95, 0x06, 0x00, 0x00, 0x00, 0x00,
      0x00, 0x00, 0x00, 0x5d, 0x94, 0x68, 0x00, 0x61, 0x2e] := by decide +kernel
  ⟨encoded, framed_of_pickle (by decide) encoded⟩

/-- A stream that is too short for a frame. -/
example : (pickle ⟨#[.none]⟩ 4 0).toOption = some [0x80, 0x04, 0x4e, 0x2e] := by decide +kernel

end Graph

end PickleTrial
