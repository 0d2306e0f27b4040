import PickleTrial.Proofs.Number.TwosComplement
import PickleTrial.Stream.Opcode

/-! Reading opcodes from bytes. The byte that names an opcode tells the form of its arguments, and
an opcode whose arguments fit their form is read back as it was written, whatever follows it. A
stream is read opcode by opcode up to the one that stops it. -/

namespace PickleTrial

namespace Bytes

/-- The number in the first bytes, lowest first, and what follows. -/
def word? (width : Nat) (bytes : Bytes) : Option (Nat × Bytes) :=
  if width ≤ bytes.length then some (toNat (bytes.take width), bytes.drop width) else none

/-- The run of bytes behind its length, and what follows. -/
def counted? (width : Nat) (bytes : Bytes) : Option (Bytes × Bytes) :=
  match bytes.word? width with
  | some (length, rest) =>
      if length ≤ rest.length then some (rest.take length, rest.drop length) else none
  | none => none

def line? : Bytes → Option (Bytes × Bytes)
  | [] => none
  | head :: tail =>
      if head = 0x0a then some ([], tail)
      else (line? tail).map fun found => (head :: found.1, found.2)

private theorem word?_littleEndian {width value : Nat} (fits : value < 256 ^ width) (rest : Bytes) :
    word? width (littleEndian width value ++ rest) = some (value, rest) := by
  have length := length_littleEndian width value
  rw [word?, if_pos (by simp), List.take_left' length, List.drop_left' length,
    toNat_littleEndian, Nat.mod_eq_of_lt fits]

private theorem counted?_counted {width : Nat} {payload : Bytes}
    (fits : payload.length < 256 ^ width) (rest : Bytes) :
    counted? width (Opcode.counted width payload ++ rest) = some (payload, rest) := by
  rw [counted?, Opcode.counted, List.append_assoc, word?_littleEndian fits]
  simp

private theorem lt_of_word? {width value : Nat} {bytes rest : Bytes}
    (found : word? width bytes = some (value, rest)) : value < 256 ^ width := by
  rw [word?] at found
  split at found
  · rename_i enough
    cases found
    have bound := toNat_lt (bytes.take width)
    rwa [List.length_take_of_le enough] at bound
  · cases found

private theorem length_lt_of_counted? {width : Nat} {bytes payload rest : Bytes}
    (found : counted? width bytes = some (payload, rest)) : payload.length < 256 ^ width := by
  rw [counted?] at found
  split at found
  · rename_i told
    split at found
    · rename_i enough
      cases found
      rw [List.length_take_of_le enough]
      exact lt_of_word? told
    · cases found
  · cases found

private theorem line?_lineBytes {line : Bytes} (noEnd : 0x0a ∉ line) (rest : Bytes) :
    line? (Opcode.lineBytes line ++ rest) = some (line, rest) := by
  induction line with
  | nil => rfl
  | cons head tail induction =>
      have parts := List.ne_and_not_mem_of_not_mem_cons noEnd
      have later := induction parts.2
      simp only [Opcode.lineBytes, List.cons_append] at later ⊢
      rw [line?, if_neg parts.1.symm, later]
      rfl

end Bytes

namespace Opcode

/-! ## Forms of arguments -/

/-- What stands behind the byte that names an opcode. -/
inductive Form
  | bare (opcode : Opcode)
  | word (width : Nat) (make : Nat → Opcode)
  | number
  | counted (width : Nat) (make : Bytes → Opcode)
  | text (width : Nat) (make : String → Opcode)
  | line (make : Bytes → Opcode)
  | twoLines (make : Bytes → Bytes → Opcode)

namespace Form

def read? (form : Form) (bytes : Bytes) : Option (Opcode × Bytes) :=
  match form with
  | bare opcode => some (opcode, bytes)
  | word width make => (bytes.word? width).map fun found => (make found.1, found.2)
  | number =>
      if 8 ≤ bytes.length then
        some (binFloat ⟨BitVec.ofNat 64 (Bytes.toNat (bytes.take 8).reverse)⟩, bytes.drop 8)
      else Option.none
  | counted width make => (bytes.counted? width).map fun found => (make found.1, found.2)
  | text width make => do
      let (payload, rest) ← bytes.counted? width
      let content ← Utf8.decode? payload
      return (make content, rest)
  | line make => bytes.line?.map fun found => (make found.1, found.2)
  | twoLines make => do
      let (first, rest) ← bytes.line?
      let (second, rest) ← rest.line?
      return (make first second, rest)

end Form

def form? (code : UInt8) : Option Form :=
  match code.toNat with
  | 0x80 => some (.word 1 proto)
  | 0x95 => some (.word 8 frame)
  | 0x2e => some (.bare stop)
  | 0x28 => some (.bare mark)
  | 0x30 => some (.bare pop)
  | 0x31 => some (.bare popMark)
  | 0x4e => some (.bare none)
  | 0x88 => some (.bare newTrue)
  | 0x89 => some (.bare newFalse)
  | 0x49 => some (.line int)
  | 0x4a => some (.word 4 fun value => binInt (BitVec.ofNat 32 value))
  | 0x4b => some (.word 1 fun value => binInt1 (BitVec.ofNat 8 value))
  | 0x4d => some (.word 2 fun value => binInt2 (BitVec.ofNat 16 value))
  | 0x4c => some (.line long)
  | 0x8a => some (.counted 1 long1)
  | 0x8b => some (.counted 4 long4)
  | 0x46 => some (.line float)
  | 0x47 => some .number
  | 0x56 => some (.line unicode)
  | 0x8c => some (.text 1 shortBinUnicode)
  | 0x58 => some (.text 4 binUnicode)
  | 0x8d => some (.text 8 binUnicode8)
  | 0x43 => some (.counted 1 shortBinBytes)
  | 0x42 => some (.counted 4 binBytes)
  | 0x8e => some (.counted 8 binBytes8)
  | 0x96 => some (.counted 8 byteArray8)
  | 0x29 => some (.bare emptyTuple)
  | 0x85 => some (.bare tuple1)
  | 0x86 => some (.bare tuple2)
  | 0x87 => some (.bare tuple3)
  | 0x74 => some (.bare tuple)
  | 0x5d => some (.bare emptyList)
  | 0x6c => some (.bare list)
  | 0x61 => some (.bare append)
  | 0x65 => some (.bare appends)
  | 0x7d => some (.bare emptyDict)
  | 0x64 => some (.bare dict)
  | 0x73 => some (.bare setItem)
  | 0x75 => some (.bare setItems)
  | 0x8f => some (.bare emptySet)
  | 0x90 => some (.bare addItems)
  | 0x63 => some (.twoLines global)
  | 0x93 => some (.bare stackGlobal)
  | 0x52 => some (.bare reduce)
  | 0x70 => some (.line put)
  | 0x71 => some (.word 1 fun slot => binPut (BitVec.ofNat 8 slot))
  | 0x72 => some (.word 4 fun slot => longBinPut (BitVec.ofNat 32 slot))
  | 0x94 => some (.bare memoize)
  | 0x67 => some (.line get)
  | 0x68 => some (.word 1 fun slot => binGet (BitVec.ofNat 8 slot))
  | 0x6a => some (.word 4 fun slot => longBinGet (BitVec.ofNat 32 slot))
  | _ => Option.none

/-- The opcode in front of a run of bytes, with its arguments complete, and what follows. -/
def read? : Bytes → Option (Opcode × Bytes)
  | [] => Option.none
  | code :: rest => (form? code).bind (Form.read? · rest)

/-! ## Reading back -/

def lines : Opcode → List Bytes
  | int line | long line | float line | unicode line | put line | get line => [line]
  | global module name => [module, name]
  | _ => []

/-- The arguments fit their form: a number or a length fits the bytes there are for it. -/
def Fits : Opcode → Prop
  | proto version => version < 256 ^ 1
  | frame length => length < 256 ^ 8
  | long1 payload | shortBinBytes payload => payload.length < 256 ^ 1
  | long4 payload | binBytes payload => payload.length < 256 ^ 4
  | binBytes8 payload | byteArray8 payload => payload.length < 256 ^ 8
  | shortBinUnicode content => content.utf8ByteSize < 256 ^ 1
  | binUnicode content => content.utf8ByteSize < 256 ^ 4
  | binUnicode8 content => content.utf8ByteSize < 256 ^ 8
  | _ => True

/-- An opcode that fits and whose lines hold no line end. -/
structure Readable (opcode : Opcode) : Prop where
  fits : opcode.Fits
  lines : ∀ line ∈ opcode.lines, 0x0a ∉ line

private theorem read?_word {width value : Nat} (make : Nat → Opcode)
    (fits : value < 256 ^ width) (rest : Bytes) :
    (Form.word width make).read? (Bytes.littleEndian width value ++ rest) =
      some (make value, rest) := by
  rw [Form.read?, Bytes.word?_littleEndian fits]
  rfl

private theorem read?_vector {count width : Nat} (make : BitVec count → Opcode)
    (value : BitVec count) (size : 2 ^ count = 256 ^ width) (rest : Bytes) :
    (Form.word width fun number => make (BitVec.ofNat count number)).read?
        (Bytes.littleEndian width value.toNat ++ rest) = some (make value, rest) := by
  rw [read?_word _ (size ▸ value.isLt), BitVec.ofNat_toNat, BitVec.setWidth_eq]

private theorem read?_counted {width : Nat} {payload : Bytes} (make : Bytes → Opcode)
    (fits : payload.length < 256 ^ width) (rest : Bytes) :
    (Form.counted width make).read? (counted width payload ++ rest) =
      some (make payload, rest) := by
  rw [Form.read?, Bytes.counted?_counted fits]
  rfl

private theorem read?_text {width : Nat} {content : String} (make : String → Opcode)
    (fits : content.utf8ByteSize < 256 ^ width) (rest : Bytes) :
    (Form.text width make).read? (counted width (Utf8.encode content) ++ rest) =
      some (make content, rest) := by
  rw [← Utf8.length_encode] at fits
  simp [Form.read?, Bytes.counted?_counted fits]

private theorem read?_line {line : Bytes} (make : Bytes → Opcode) (noEnd : 0x0a ∉ line)
    (rest : Bytes) :
    (Form.line make).read? (lineBytes line ++ rest) = some (make line, rest) := by
  rw [Form.read?, Bytes.line?_lineBytes noEnd]
  rfl

private theorem read?_number (value : Binary64) (rest : Bytes) :
    Form.number.read? (Bytes.bigEndian 8 value.bits.toNat ++ rest) =
      some (binFloat value, rest) := by
  have length := Bytes.length_bigEndian 8 value.bits.toNat
  rw [Form.read?, if_pos (by simp), List.take_left' length, List.drop_left' length,
    Bytes.bigEndian, List.reverse_reverse, Bytes.toNat_littleEndian,
    Nat.mod_eq_of_lt (show value.bits.toNat < 256 ^ 8 from value.bits.isLt), BitVec.ofNat_toNat,
    BitVec.setWidth_eq]

private theorem read?_of_form {opcode : Opcode} {form : Form} {rest : Bytes}
    (named : form? opcode.code = some form)
    (arguments : form.read? (opcode.arguments ++ rest) = some (opcode, rest)) :
    read? (opcode.bytes ++ rest) = some (opcode, rest) := by
  rw [bytes, List.cons_append, read?, named]
  exact arguments

/-- An opcode reads back from its bytes, whatever follows them. -/
theorem read?_bytes {opcode : Opcode} (readable : opcode.Readable) (rest : Bytes) :
    read? (opcode.bytes ++ rest) = some (opcode, rest) := by
  have fits := readable.fits
  have lines := readable.lines
  cases opcode with
  | proto version => exact read?_of_form rfl (read?_word proto fits rest)
  | frame length => exact read?_of_form rfl (read?_word frame fits rest)
  | int line => exact read?_of_form rfl (read?_line int (lines line List.mem_cons_self) rest)
  | long line => exact read?_of_form rfl (read?_line long (lines line List.mem_cons_self) rest)
  | float line => exact read?_of_form rfl (read?_line float (lines line List.mem_cons_self) rest)
  | unicode line =>
      exact read?_of_form rfl (read?_line unicode (lines line List.mem_cons_self) rest)
  | put line => exact read?_of_form rfl (read?_line put (lines line List.mem_cons_self) rest)
  | get line => exact read?_of_form rfl (read?_line get (lines line List.mem_cons_self) rest)
  | global module name =>
      have first := lines module List.mem_cons_self
      have second := lines name (List.mem_cons_of_mem _ List.mem_cons_self)
      refine read?_of_form rfl ?_
      rw [arguments, Form.read?, List.append_assoc, Bytes.line?_lineBytes first]
      simp [Bytes.line?_lineBytes second]
  | binInt value => exact read?_of_form rfl (read?_vector binInt value (by omega) rest)
  | binInt1 value => exact read?_of_form rfl (read?_vector binInt1 value (by omega) rest)
  | binInt2 value => exact read?_of_form rfl (read?_vector binInt2 value (by omega) rest)
  | binPut slot => exact read?_of_form rfl (read?_vector binPut slot (by omega) rest)
  | longBinPut slot => exact read?_of_form rfl (read?_vector longBinPut slot (by omega) rest)
  | binGet slot => exact read?_of_form rfl (read?_vector binGet slot (by omega) rest)
  | longBinGet slot => exact read?_of_form rfl (read?_vector longBinGet slot (by omega) rest)
  | binFloat value => exact read?_of_form rfl (read?_number value rest)
  | long1 payload => exact read?_of_form rfl (read?_counted long1 fits rest)
  | long4 payload => exact read?_of_form rfl (read?_counted long4 fits rest)
  | shortBinUnicode content => exact read?_of_form rfl (read?_text shortBinUnicode fits rest)
  | binUnicode content => exact read?_of_form rfl (read?_text binUnicode fits rest)
  | binUnicode8 content => exact read?_of_form rfl (read?_text binUnicode8 fits rest)
  | shortBinBytes payload => exact read?_of_form rfl (read?_counted shortBinBytes fits rest)
  | binBytes payload => exact read?_of_form rfl (read?_counted binBytes fits rest)
  | binBytes8 payload => exact read?_of_form rfl (read?_counted binBytes8 fits rest)
  | byteArray8 payload => exact read?_of_form rfl (read?_counted byteArray8 fits rest)
  | _ => exact read?_of_form rfl rfl

private theorem bytes_ne_nil (opcode : Opcode) : opcode.bytes ≠ [] :=
  List.cons_ne_nil _ _

/-! ## What is read fits -/

namespace Form

/-- Whatever is read by the form fits. -/
private def Fitting (form : Form) : Prop :=
  ∀ ⦃bytes opcode rest⦄, form.read? bytes = some (opcode, rest) → opcode.Fits

private theorem fitting_bare {opcode : Opcode} (fits : opcode.Fits) : (bare opcode).Fitting := by
  intro bytes found rest read
  cases read
  exact fits

private theorem fitting_word {width : Nat} {make : Nat → Opcode}
    (fits : ∀ value < 256 ^ width, (make value).Fits) : (word width make).Fitting := by
  intro bytes opcode rest read
  rcases Option.map_eq_some_iff.1 read with ⟨⟨value, behind⟩, found, same⟩
  cases same
  exact fits value (Bytes.lt_of_word? found)

private theorem fitting_number : number.Fitting := by
  intro bytes opcode rest read
  rw [read?] at read
  split at read <;> cases read
  trivial

private theorem fitting_counted {width : Nat} {make : Bytes → Opcode}
    (fits : ∀ payload : Bytes, payload.length < 256 ^ width → (make payload).Fits) :
    (counted width make).Fitting := by
  intro bytes opcode rest read
  rcases Option.map_eq_some_iff.1 read with ⟨⟨payload, behind⟩, found, same⟩
  cases same
  exact fits payload (Bytes.length_lt_of_counted? found)

private theorem fitting_text {width : Nat} {make : String → Opcode}
    (fits : ∀ content : String, content.utf8ByteSize < 256 ^ width → (make content).Fits) :
    (text width make).Fitting := by
  intro bytes opcode rest read
  rcases Option.bind_eq_some_iff.1 read with ⟨⟨payload, behind⟩, found, decoded⟩
  rcases Option.bind_eq_some_iff.1 decoded with ⟨content, encodes, same⟩
  cases same
  have bound := Bytes.length_lt_of_counted? found
  rw [← Utf8.decode?_eq_some_iff.1 encodes, Utf8.length_encode] at bound
  exact fits content bound

private theorem fitting_line {make : Bytes → Opcode} (fits : ∀ line, (make line).Fits) :
    (line make).Fitting := by
  intro bytes opcode rest read
  rcases Option.map_eq_some_iff.1 read with ⟨found, -, same⟩
  cases same
  exact fits found.1

private theorem fitting_twoLines {make : Bytes → Bytes → Opcode}
    (fits : ∀ first second, (make first second).Fits) : (twoLines make).Fitting := by
  intro bytes opcode rest read
  rcases Option.bind_eq_some_iff.1 read with ⟨first, -, read⟩
  rcases Option.bind_eq_some_iff.1 read with ⟨second, -, same⟩
  cases same
  exact fits first.1 second.1

private theorem fitting_of_form? {code : UInt8} {form : Form} (named : form? code = some form) :
    form.Fitting := by
  rw [form?] at named
  split at named <;> cases named
  all_goals first
    | exact fitting_bare trivial
    | exact fitting_word fun _ fits => fits
    | exact fitting_word fun _ _ => trivial
    | exact fitting_counted fun _ fits => fits
    | exact fitting_text fun _ fits => fits
    | exact fitting_line fun _ => trivial
    | exact fitting_twoLines fun _ _ => trivial
    | exact fitting_number

end Form

/-- An opcode that is read fits, whoever wrote the bytes. -/
private theorem fits_of_read? {bytes rest : Bytes} {opcode : Opcode}
    (found : read? bytes = some (opcode, rest)) : opcode.Fits := by
  cases bytes with
  | nil => cases found
  | cons code later =>
      rcases Option.bind_eq_some_iff.1 found with ⟨form, named, arguments⟩
      exact Form.fitting_of_form? named arguments

end Opcode

/-! ## Streams -/

namespace Stream

/-- The opcodes up to the one that stops a stream, as many rounds at most, and what follows. A
frame tells how many bytes it holds, and there are as many. -/
def readWithin : (rounds : Nat) → Bytes → Option (List Opcode × Bytes)
  | 0, _ => none
  | rounds + 1, bytes =>
      match Opcode.read? bytes with
      | none => none
      | some (.stop, rest) => some ([.stop], rest)
      | some (.frame length, rest) =>
          if length ≤ rest.length then
            (readWithin rounds rest).map fun found => (.frame length :: found.1, found.2)
          else none
      | some (opcode, rest) =>
          (readWithin rounds rest).map fun found => (opcode :: found.1, found.2)

/-- The opcodes of the stream in front of a run of bytes, and what follows it. -/
def read? (bytes : Bytes) : Option (List Opcode × Bytes) :=
  readWithin bytes.length bytes

def bytes (opcodes : List Opcode) : Bytes :=
  opcodes.flatMap Opcode.bytes

@[simp] theorem bytes_nil : bytes [] = [] := rfl

@[simp] theorem bytes_cons (opcode : Opcode) (rest : List Opcode) :
    bytes (opcode :: rest) = opcode.bytes ++ bytes rest := by
  simp [bytes]

@[simp] theorem bytes_append (first second : List Opcode) :
    bytes (first ++ second) = bytes first ++ bytes second := by
  simp [bytes]

/-- Opcodes that a stop follows: none of them stops the stream, and no frame reaches beyond the
stop. -/
def Continues : List Opcode → Prop
  | [] => True
  | .stop :: _ => False
  | .frame length :: rest => length ≤ (bytes rest ++ Opcode.stop.bytes).length ∧ Continues rest
  | _ :: rest => Continues rest

private theorem readWithin_bytes {opcodes : List Opcode}
    (readable : ∀ opcode ∈ opcodes, opcode.Readable) (continues : Continues opcodes) {rounds : Nat}
    (enough : (bytes opcodes ++ Opcode.stop.bytes).length ≤ rounds) (rest : Bytes) :
    readWithin rounds (bytes opcodes ++ Opcode.stop.bytes ++ rest) =
      some (opcodes ++ [.stop], rest) := by
  induction opcodes generalizing rounds with
  | nil =>
      cases rounds with
      | zero => simp [Opcode.bytes] at enough
      | succ rounds => rfl
  | cons opcode later induction =>
      have first := List.forall_mem_cons.1 readable
      cases rounds with
      | zero => simp [Opcode.bytes] at enough
      | succ rounds =>
          have shorter : (bytes later ++ Opcode.stop.bytes).length ≤ rounds := by
            have nonempty := List.length_pos_iff.2 opcode.bytes_ne_nil
            simp only [bytes_cons, List.length_append] at enough ⊢
            omega
          have found := Opcode.read?_bytes first.1 (bytes later ++ Opcode.stop.bytes ++ rest)
          have regrouped : bytes (opcode :: later) ++ Opcode.stop.bytes ++ rest =
              opcode.bytes ++ (bytes later ++ Opcode.stop.bytes ++ rest) := by
            simp
          rw [regrouped, readWithin, found]
          cases opcode with
          | stop => exact continues.elim
          | frame length =>
              have inside : length ≤ (bytes later ++ Opcode.stop.bytes ++ rest).length := by
                have bound := continues.1
                simp only [List.length_append] at bound ⊢
                omega
              simp only [inside, if_true, induction first.2 continues.2 shorter, Option.map_some,
                List.cons_append]
          | _ =>
              simp only [induction first.2 continues shorter, Option.map_some, List.cons_append]

/-- A stream reads back as its opcodes, whatever follows it. -/
theorem read?_bytes {opcodes : List Opcode} (readable : ∀ opcode ∈ opcodes, opcode.Readable)
    (continues : Continues opcodes) (rest : Bytes) :
    read? (bytes (opcodes ++ [.stop]) ++ rest) = some (opcodes ++ [.stop], rest) := by
  have enough : (bytes opcodes ++ Opcode.stop.bytes).length ≤
      (bytes opcodes ++ Opcode.stop.bytes ++ rest).length := by
    simp
  have whole := readWithin_bytes readable continues enough rest
  rw [read?, bytes_append, bytes_cons, bytes_nil, List.append_nil]
  exact whole

private theorem fits_of_readWithin {rounds : Nat} {bytes rest : Bytes} {opcodes : List Opcode}
    (found : readWithin rounds bytes = some (opcodes, rest)) :
    ∀ opcode ∈ opcodes, opcode.Fits := by
  induction rounds generalizing bytes opcodes with
  | zero => cases found
  | succ rounds induction =>
      have more {first : Opcode} {behind : Bytes} (fits : first.Fits)
          (later : (readWithin rounds behind).map (fun found => (first :: found.1, found.2)) =
            some (opcodes, rest)) : ∀ opcode ∈ opcodes, opcode.Fits := by
        rcases Option.map_eq_some_iff.1 later with ⟨inner, read, same⟩
        cases same
        exact List.forall_mem_cons.2 ⟨fits, induction read⟩
      rw [readWithin] at found
      split at found
      · cases found
      · cases found
        simp [Opcode.Fits]
      · rename_i told
        split at found
        · exact more (Opcode.fits_of_read? told) found
        · cases found
      · rename_i told
        exact more (Opcode.fits_of_read? told) found

/-- The opcodes that are read fit. -/
theorem fits_of_read? {bytes rest : Bytes} {opcodes : List Opcode}
    (found : read? bytes = some (opcodes, rest)) : ∀ opcode ∈ opcodes, opcode.Fits :=
  fits_of_readWithin found

end Stream

end PickleTrial
