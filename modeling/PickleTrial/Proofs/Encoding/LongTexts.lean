import PickleTrial.Proofs.Encoding.Termination
import PickleTrial.Proofs.Stream.Walk

/-! Texts of 4 GiB and more below protocol 4. The one opcode there is for them tells their length in
four bytes, and of a longer length only the low digits are written. A reader takes so much less for
the text, and the rest of it for opcodes. -/

namespace PickleTrial

/-! ## Lengths that start over -/

/-- A length of which nothing is left is told as the length of the empty text. -/
private theorem Opcode.bytes_binUnicode_of_wraps {content : String}
    (wraps : content.utf8ByteSize % 256 ^ 4 = 0) :
    (binUnicode content).bytes = (binUnicode "").bytes ++ Utf8.encode content := by
  have told : Bytes.littleEndian 4 content.utf8ByteSize = Bytes.littleEndian 4 0 := by
    apply Bytes.eq_of_toNat_eq
    · simp
    · rw [Bytes.toNat_littleEndian, wraps]
      rfl
  have empty : Utf8.encode "" = [] := rfl
  simp [bytes, code, arguments, counted, told, empty]

namespace Stream

/-- The opcodes in front of a stream are read first, unless one of them stops it. -/
private theorem exists_append_of_readWithin {first opcodes : List Opcode} {rest behind : Bytes}
    {rounds : Nat} (readable : ∀ opcode ∈ first, opcode.Readable) (goesOn : .stop ∉ first)
    (read : readWithin rounds (bytes first ++ rest) = some (opcodes, behind)) :
    ∃ inner, opcodes = first ++ inner := by
  induction first generalizing opcodes rounds with
  | nil => exact ⟨opcodes, rfl⟩
  | cons opcode later induction =>
      have parts := List.forall_mem_cons.1 readable
      have ordinary := List.ne_and_not_mem_of_not_mem_cons goesOn
      have told := Opcode.read?_bytes parts.1 (bytes later ++ rest)
      cases rounds with
      | zero => cases read
      | succ rounds =>
          have more (readLater : (readWithin rounds (bytes later ++ rest)).map
              (fun found => (opcode :: found.1, found.2)) = some (opcodes, behind)) :
              ∃ inner, opcodes = opcode :: later ++ inner := by
            rcases Option.map_eq_some_iff.1 readLater with ⟨found, known, same⟩
            cases same
            rcases induction parts.2 ordinary.2 known with ⟨inner, equal⟩
            exact ⟨inner, congrArg (opcode :: ·) equal⟩
          rw [bytes_cons, List.append_assoc, readWithin, told] at read
          cases opcode with
          | stop => exact absurd rfl ordinary.1
          | frame length =>
              simp only at read
              split at read
              · exact more read
              · cases read
          | _ => exact more read

end Stream

namespace Walk

variable {protocol : Protocol}

/-- Nothing is appended to a value that stands alone. -/
private theorem acceptsBody_append (content : String) (rest : List Opcode) :
    acceptsBody protocol (.binUnicode content :: .append :: rest) = false := by
  have stuck (opcodes : List Opcode) :
      run? protocol (.binUnicode content :: .append :: opcodes) {} = none := by
    rw [run?, List.foldlM_cons, step?]
    split
    · rfl
    · rfl
  cases rest with
  | nil => rfl
  | cons next later =>
      rw [acceptsBody, List.dropLast_cons_cons, List.dropLast_cons_cons, stuck]
      simp

/-- Where its length starts over, a text is taken for opcodes, and an `a` in front for one that has
nothing to append to. -/
private theorem not_isValid_of_wraps {content : String} {later : List Char}
    (wraps : content.utf8ByteSize % 256 ^ 4 = 0) (begins : content.toList = 'a' :: later)
    (tail : List Opcode) :
    isValid protocol (Stream.bytes (Trace.heading protocol ++ .binUnicode content :: tail)) =
      false := by
  have encoded : Utf8.encode content =
      Opcode.append.bytes ++ later.flatMap String.utf8EncodeChar := by
    rw [Utf8.encode, begins, List.flatMap_cons]
    rfl
  have laidOut : Stream.bytes (Trace.heading protocol ++ .binUnicode content :: tail) =
      Stream.bytes (Trace.heading protocol ++ [.binUnicode "", .append]) ++
        (later.flatMap String.utf8EncodeChar ++ Stream.bytes tail) := by
    simp [Opcode.bytes_binUnicode_of_wraps wraps, encoded]
  have readable : ∀ opcode ∈ Trace.heading protocol ++ [.binUnicode "", .append],
      opcode.Readable := by
    simp only [List.forall_mem_append, List.forall_mem_cons]
    exact ⟨fun _ => Trace.readable_of_mem_heading,
      ⟨Nat.pow_pos (by decide), by simp [Opcode.lines]⟩, ⟨trivial, by simp [Opcode.lines]⟩, by simp⟩
  have goesOn : .stop ∉ Trace.heading protocol ++ [.binUnicode "", .append] := by
    simp [Trace.mem_heading]
  rw [isValid, laidOut]
  split
  · rename_i opcodes read
    rcases Stream.exists_append_of_readWithin readable goesOn read with ⟨inner, rfl⟩
    rw [List.append_assoc, accepts_heading_append (by simp)]
    exact acceptsBody_append _ _
  · rfl

end Walk

namespace Graph

/-- Below protocol 4 a text is written to its end even where its length starts over, and what is
written is no stream. -/
theorem exists_pickle_not_isValid_of_wraps {graph : Graph} {protocol : Protocol} {root : NodeId}
    {content : String} {later : List Char} (present : graph.node? root = some (.text content))
    (binary : protocol.version ≠ 0) (old : protocol.version < 4)
    (wraps : content.utf8ByteSize % 256 ^ 4 = 0) (begins : content.toList = 'a' :: later) :
    ∃ bytes, graph.pickle protocol.version root = .ok bytes ∧
      Walk.isValid protocol bytes = false := by
  have opcode : protocol.textOpcode content = .binUnicode content := by
    have unlimited : ¬4 ≤ protocol.version := by omega
    simp [Protocol.textOpcode, binary, unlimited]
  have plan : protocol.plan root (.text content) =
      .ok [.op (.binUnicode content), .remember (some (.node root))] := by
    rw [Protocol.plan, opcode]
  rcases exists_trace_eq_of_plan present plan with ⟨depth, written⟩
  refine ⟨_, pickle_eq.trans (by rw [written, Trace.performAll]; rfl), ?_⟩
  rw [Trace.delivery_of_unframed _ old]
  exact Walk.not_isValid_of_wraps wraps begins _

end Graph

end PickleTrial
