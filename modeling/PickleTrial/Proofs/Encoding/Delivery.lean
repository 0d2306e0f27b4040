import PickleTrial.Encoding.Encoded
import PickleTrial.Proofs.Encoding.Writing

/-! The opcodes of a stream. A trace is delivered as the header, the frames and the opcodes of the
trace in their order, and the stop at the end; a reader finds exactly these opcodes in the bytes
of the stream. -/

namespace PickleTrial

namespace Piece

def framed (protocol : Protocol) (piece : Piece) : List Opcode :=
  if 4 ≤ protocol.version ∧ frameSize ≤ piece.size then .frame piece.size :: piece else piece

private theorem bytes_eq (protocol : Protocol) (piece : Piece) :
    piece.bytes protocol = Stream.bytes (piece.framed protocol) := by
  rw [bytes, framed]
  split
  · exact (Stream.bytes_cons _ _).symm
  · rfl

end Piece

namespace Pieces

def opcodes (pieces : Pieces) : List Opcode :=
  pieces.toList.flatten ++ pieces.opened.reverse

theorem opcodes_close (pieces : Pieces) : pieces.close.opcodes = pieces.opcodes := by
  rw [close]
  split
  · rfl
  · simp [opcodes, toList]

private theorem opened_close (pieces : Pieces) : pieces.close.opened = [] := by
  rw [close]
  split
  · assumption
  · rfl

theorem opcodes_add (pieces : Pieces) (event : Event) :
    (pieces.add event).opcodes = pieces.opcodes ++ event.opcode?.toList := by
  cases event with
  | split =>
      simp only [add]
      split
      · simp [Event.opcode?]
      · simp [opcodes_close, Event.opcode?]
  | begins id => simp [add, Event.opcode?]
  | op opcode => simp [add, opcodes, toList, Event.opcode?]

private theorem opcodes_foldl (events : List Event) (pieces : Pieces) :
    (events.foldl add pieces).opcodes = pieces.opcodes ++ events.filterMap Event.opcode? := by
  induction events generalizing pieces with
  | nil => simp
  | cons event rest induction =>
      rw [List.foldl_cons, induction, opcodes_add, List.append_assoc]
      cases equal : event.opcode? <;> simp [equal]

private theorem flatten_ofEvents (events : List Event) :
    (ofEvents events).close.toList.flatten = events.filterMap Event.opcode? := by
  have whole := opcodes_close (ofEvents events)
  rw [opcodes, opened_close, List.reverse_nil, List.append_nil] at whole
  rw [whole, ofEvents, opcodes_foldl]
  rfl

end Pieces

namespace Trace

def pieces (trace : Trace) : List Piece :=
  (Pieces.ofEvents (trace.emit .stop).events).close.toList

theorem flatten_pieces (trace : Trace) : trace.pieces.flatten = trace.opcodes ++ [.stop] := by
  rw [pieces, Pieces.flatten_ofEvents, events_emit, List.filterMap_append]
  rfl

def delivery (trace : Trace) (protocol : Protocol) : List Opcode :=
  (if 2 ≤ protocol.version then [.proto protocol.version] else []) ++
    trace.pieces.flatMap (Piece.framed protocol)

theorem delivered_eq (trace : Trace) (protocol : Protocol) :
    Graph.delivered protocol (Pieces.ofEvents (trace.emit .stop).events).close =
      Stream.bytes (trace.delivery protocol) := by
  have header : Graph.header protocol =
      Stream.bytes (if 2 ≤ protocol.version then [.proto protocol.version] else []) := by
    rw [Graph.header]
    split
    · simp
    · rfl
  have body (pieces : List Piece) : pieces.flatMap (Piece.bytes protocol) =
      Stream.bytes (pieces.flatMap (Piece.framed protocol)) := by
    rw [Stream.bytes, List.flatMap_assoc]
    exact List.flatMap_congr fun piece _ => piece.bytes_eq protocol
  rw [Graph.delivered, delivery, Stream.bytes_append, header, body]
  rfl

end Trace

/-! ## Reading a stream back -/

namespace Stream

private theorem continues_append {first second : List Opcode}
    (inside : ∀ opcode ∈ first, opcode.surrounds = false) :
    Continues (first ++ second) ↔ Continues second := by
  induction first with
  | nil => rfl
  | cons opcode rest induction =>
      have parts := List.forall_mem_cons.1 inside
      rw [← induction parts.2]
      cases opcode with
      | stop => cases parts.1
      | frame => cases parts.1
      | _ => rfl

def isFrame : Opcode → Bool
  | .frame _ => true
  | _ => false

/-- The opcodes of a value with frames between them, where a protocol has frames. -/
structure Framing (protocol : Protocol) (opcodes body : List Opcode) : Prop where
  continues : Continues body
  content : body.filter (!isFrame ·) = opcodes
  frames : ∀ opcode ∈ body, opcode ∈ opcodes ∨ 4 ≤ protocol.version ∧ isFrame opcode

private theorem filter_isFrame {opcodes : List Opcode}
    (inside : ∀ opcode ∈ opcodes, opcode.surrounds = false) :
    opcodes.filter (!isFrame ·) = opcodes := by
  apply List.filter_eq_self.2
  intro opcode member
  have plain := inside opcode member
  cases opcode <;> first | rfl | cases plain

private theorem framing_append {protocol : Protocol} {first opcodes body : List Opcode}
    (inside : ∀ opcode ∈ first, opcode.surrounds = false)
    (framing : Framing protocol opcodes body) :
    Framing protocol (first ++ opcodes) (first ++ body) where
  continues := (continues_append inside).2 framing.continues
  content := by rw [List.filter_append, filter_isFrame inside, framing.content]
  frames opcode member := by
    rcases List.mem_append.1 member with inFirst | inBody
    · exact Or.inl (List.mem_append_left _ inFirst)
    · exact (framing.frames opcode inBody).imp_left (List.mem_append_right _)

private theorem framing_nil (protocol : Protocol) : Framing protocol [] [] where
  continues := trivial
  content := rfl
  frames _ member := by cases member

private theorem framing_frame {protocol : Protocol} {opcodes body : List Opcode} {length : Nat}
    (recent : 4 ≤ protocol.version) (inside : length ≤ (bytes body ++ Opcode.stop.bytes).length)
    (framing : Framing protocol opcodes body) :
    Framing protocol opcodes (.frame length :: body) where
  continues := ⟨inside, framing.continues⟩
  content := framing.content
  frames opcode member := by
    rcases List.mem_cons.1 member with rfl | later
    · exact Or.inr ⟨recent, rfl⟩
    · exact framing.frames opcode later

private theorem framed_nil (protocol : Protocol) : Piece.framed protocol [] = [] :=
  if_neg fun long => absurd long.2 (by decide)

/-- A piece can be framed wherever the end of the stream is in it or behind it. -/
private theorem exists_framing_framed {protocol : Protocol} {piece : Piece}
    {opcodes body rest : List Opcode}
    (whole : piece ++ rest = body ++ [.stop]) (framing : Framing protocol opcodes body) :
    ∃ framed, piece.framed protocol ++ rest = framed ++ [.stop] ∧
      Framing protocol opcodes framed := by
  rw [Piece.framed]
  split
  · rename_i long
    refine ⟨.frame _ :: body, congrArg (_ :: ·) whole, framing_frame long.1 ?_ framing⟩
    have behind : bytes piece ++ bytes rest = bytes body ++ Opcode.stop.bytes := by
      rw [← bytes_append, whole, bytes_append]
      rfl
    rw [← behind, List.length_append, ← Piece.length_content]
    exact Nat.le_add_right _ _
  · exact ⟨body, whole, framing⟩

/-- Delivered, pieces that end with the end of the stream are the opcodes in front of it with frames
between them. -/
private theorem exists_framing (protocol : Protocol) {pieces : List Piece} {opcodes : List Opcode}
    (flat : pieces.flatten = opcodes ++ [.stop])
    (inside : ∀ opcode ∈ opcodes, opcode.surrounds = false) :
    ∃ body, pieces.flatMap (Piece.framed protocol) = body ++ [.stop] ∧
      Framing protocol opcodes body := by
  induction pieces generalizing opcodes with
  | nil => simp at flat
  | cons piece rest induction =>
      rw [List.flatMap_cons]
      have more {later : List Opcode} (whole : opcodes = piece ++ later)
          (flatRest : rest.flatten = later ++ [.stop]) :
          ∃ body, piece.framed protocol ++ rest.flatMap (Piece.framed protocol) =
            body ++ [.stop] ∧ Framing protocol opcodes body := by
        subst whole
        have parts := List.forall_mem_append.1 inside
        rcases induction flatRest parts.2 with ⟨body, equal, framing⟩
        rw [equal]
        exact exists_framing_framed (List.append_assoc _ _ _).symm
          (framing_append parts.1 framing)
      -- The end is in a later piece, or it is the last opcode of this one, or all of the rest.
      rw [List.flatten_cons, List.append_eq_append_iff] at flat
      rcases flat with ⟨later, whole, flatRest⟩ | ⟨last, whole, flatRest⟩
      · exact more whole flatRest
      · rcases List.append_eq_singleton_iff.1 flatRest.symm with ⟨rfl, stop⟩ | ⟨rfl, none⟩
        · have exactly : opcodes = piece := by simpa using whole.symm
          exact more (exactly.trans (List.append_nil _).symm) stop
        · have empty : rest.flatMap (Piece.framed protocol) = [] := by
            apply List.flatMap_eq_nil_iff.2
            intro piece member
            rw [List.flatten_eq_nil_iff.1 none piece member]
            exact framed_nil protocol
          have unframed := framing_append inside (framing_nil protocol)
          rw [List.append_nil] at unframed
          rw [empty]
          exact exists_framing_framed ((List.append_nil _).trans whole) unframed

end Stream

namespace Trace

/-- The opcodes in front of the value. -/
def heading (protocol : Protocol) : List Opcode :=
  if 2 ≤ protocol.version then [.proto protocol.version] else []

/-- Without frames nothing is delivered but the heading, what was written, and the end. -/
theorem delivery_of_unframed (trace : Trace) {protocol : Protocol} (old : protocol.version < 4) :
    trace.delivery protocol = heading protocol ++ (trace.opcodes ++ [.stop]) := by
  have unframed : Piece.framed protocol = id := by
    funext piece
    rw [Piece.framed, if_neg (by omega)]
    rfl
  rw [delivery, unframed, List.flatMap_id, flatten_pieces]
  rfl

theorem mem_heading {protocol : Protocol} {opcode : Opcode} :
    opcode ∈ heading protocol ↔ 2 ≤ protocol.version ∧ opcode = .proto protocol.version := by
  rw [heading]
  split <;> simp_all

theorem readable_of_mem_heading {protocol : Protocol} {opcode : Opcode}
    (member : opcode ∈ heading protocol) : opcode.Readable := by
  have supported := protocol.supported
  rw [(mem_heading.1 member).2]
  exact ⟨by simp only [Opcode.Fits]; omega, by simp [Opcode.lines]⟩

theorem exists_delivery_eq {trace : Trace} {protocol : Protocol}
    (emitted : ∀ opcode ∈ trace.opcodes, opcode.Emitted protocol) :
    ∃ body, trace.delivery protocol = heading protocol ++ body ++ [.stop] ∧
      Stream.Framing protocol trace.opcodes body := by
  rcases Stream.exists_framing protocol trace.flatten_pieces
    fun opcode member => (emitted opcode member).inside with ⟨body, equal, framing⟩
  refine ⟨body, ?_, framing⟩
  rw [delivery, equal, List.append_assoc]
  rfl

/-- Frames are opcodes that the protocol writes as well. -/
private theorem written_of_framing {trace : Trace} {protocol : Protocol} {body : List Opcode}
    (emitted : ∀ opcode ∈ trace.opcodes, opcode.Emitted protocol)
    (framing : Stream.Framing protocol trace.opcodes body) {opcode : Opcode}
    (member : opcode ∈ body) :
    opcode.since ≤ protocol.version ∧ (∀ line ∈ opcode.lines, 0x0a ∉ line) ∧
      (opcode.WithinLimits protocol → opcode.Fits) := by
  rcases framing.frames opcode member with inside | ⟨recent, frame⟩
  · exact ⟨(emitted opcode inside).since, (emitted opcode inside).lines,
      (emitted opcode inside).fits⟩
  · cases opcode with
    | frame length => exact ⟨recent, by simp [Opcode.lines], fun within => within⟩
    | _ => cases frame

/-- A stream reads back as the opcodes it delivers, and ends with the last of them. -/
private theorem read?_delivery {trace : Trace} {protocol : Protocol}
    (emitted : ∀ opcode ∈ trace.opcodes, opcode.Emitted protocol)
    (limits : ∀ opcode ∈ trace.delivery protocol, opcode.WithinLimits protocol) :
    Stream.read? (Stream.bytes (trace.delivery protocol)) =
      some (trace.delivery protocol, []) := by
  rcases exists_delivery_eq emitted with ⟨body, equal, framing⟩
  rw [equal] at limits ⊢
  have readable : ∀ opcode ∈ heading protocol ++ body, opcode.Readable := by
    intro opcode member
    have within := limits opcode (List.mem_append_left _ member)
    rcases List.mem_append.1 member with inHeading | inBody
    · exact readable_of_mem_heading inHeading
    · have written := written_of_framing emitted framing inBody
      exact ⟨written.2.2 within, written.2.1⟩
  have continues : Stream.Continues (heading protocol ++ body) := by
    rw [heading]
    split
    · exact framing.continues
    · exact framing.continues
  have found := Stream.read?_bytes readable continues []
  rwa [List.append_nil] at found

/-- Where all that is delivered fits, the protocol has room for the payloads. -/
private theorem withinLimits_of_delivery {trace : Trace} {protocol : Protocol}
    (emitted : ∀ opcode ∈ trace.opcodes, opcode.Emitted protocol)
    (fits : ∀ opcode ∈ trace.delivery protocol, opcode.Fits) :
    ∀ opcode ∈ trace.delivery protocol, opcode.WithinLimits protocol := by
  rcases exists_delivery_eq emitted with ⟨body, equal, framing⟩
  intro opcode member
  have told := fits opcode member
  simp only [equal, List.mem_append, List.mem_singleton] at member
  rcases member with (inHeading | inBody) | rfl
  · rw [(mem_heading.1 inHeading).2]
    trivial
  · exact Opcode.withinLimits_of_fits (written_of_framing emitted framing inBody).1 told
  · trivial

end Trace

namespace Graph

def opcodes (graph : Graph) (protocol : Protocol) (root : NodeId) : List Opcode :=
  match graph.trace protocol root with
  | .complete trace => trace.delivery protocol
  | .failed _ _ => []

/-- Whether the protocol has room for the payloads of the stream of a value. -/
def WithinLimits (graph : Graph) (protocol : Protocol) (root : NodeId) : Prop :=
  ∀ opcode ∈ graph.opcodes protocol root, opcode.WithinLimits protocol

instance (graph : Graph) (protocol : Protocol) (root : NodeId) :
    Decidable (graph.WithinLimits protocol root) :=
  inferInstanceAs (Decidable (∀ opcode ∈ _, _))

theorem pickle_version (graph : Graph) (protocol : Protocol) (root : NodeId) :
    graph.pickle protocol.version root = graph.stream protocol root := by
  rw [pickle, Protocol.of?, dif_pos protocol.supported]

/-- What is known of a stream that is encoded to its end. -/
structure Streamed (graph : Graph) (protocol : Protocol) (root : NodeId) (bytes : Bytes)
    (trace : Trace) : Prop where
  traced : graph.trace protocol root = .complete trace
  grows : Trace.Grows protocol {} trace
  bytes : bytes = Stream.bytes (trace.delivery protocol)

theorem exists_streamed {graph : Graph} {protocol : Protocol} {root : NodeId} {bytes : Bytes}
    (encoded : graph.pickle protocol.version root = .ok bytes) :
    ∃ trace, Streamed graph protocol root bytes trace := by
  rw [pickle_version] at encoded
  rw [stream, encode] at encoded
  cases traced : graph.trace protocol root with
  | failed error trace => simp [traced] at encoded
  | complete trace =>
      simp only [traced, Except.ok.injEq] at encoded
      refine ⟨trace, traced, ?_, ?_⟩
      · exact Trace.Grows.trans (.split .refl) (Trace.Grows.writeNode traced)
      · rw [← encoded, Trace.delivered_eq]

namespace Streamed

variable {graph : Graph} {protocol : Protocol} {root : NodeId} {bytes : Bytes} {trace : Trace}

theorem emitted (streamed : Streamed graph protocol root bytes trace) :
    ∀ opcode ∈ trace.opcodes, opcode.Emitted protocol :=
  streamed.grows.emitted (by simp [Trace.opcodes, Trace.events])

theorem opcodes (streamed : Streamed graph protocol root bytes trace) :
    graph.opcodes protocol root = trace.delivery protocol := by
  rw [Graph.opcodes, streamed.traced]

/-- Within the limits of the protocol, the bytes of a stream read back as its opcodes. -/
theorem read? (streamed : Streamed graph protocol root bytes trace)
    (limits : graph.WithinLimits protocol root) :
    Stream.read? bytes = some (graph.opcodes protocol root, []) := by
  rw [WithinLimits, streamed.opcodes] at limits
  rw [streamed.opcodes, streamed.bytes]
  exact Trace.read?_delivery streamed.emitted limits

/-- They read back as its opcodes nowhere else. -/
theorem read?_iff (streamed : Streamed graph protocol root bytes trace) :
    Stream.read? bytes = some (graph.opcodes protocol root, []) ↔
      graph.WithinLimits protocol root := by
  refine ⟨fun found => ?_, streamed.read?⟩
  have fits := Stream.fits_of_read? found
  rw [streamed.opcodes] at fits
  rw [WithinLimits, streamed.opcodes]
  exact Trace.withinLimits_of_delivery streamed.emitted fits

end Streamed

end Graph

end PickleTrial
