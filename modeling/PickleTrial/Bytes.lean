/-! Byte strings, how a number is laid out in them (its base-256 digits, lowest first or highest
first, in a given number of bytes), and runs of bytes that need not be laid out to be passed on. -/

namespace PickleTrial

abbrev Bytes := List UInt8

namespace Bytes

/-- The lowest `width` base-256 digits of a number, lowest first. -/
def littleEndian : (width : Nat) → (value : Nat) → Bytes
  | 0, _ => []
  | width + 1, value => UInt8.ofNat value :: littleEndian width (value / 256)

/-- The lowest `width` base-256 digits of a number, highest first. -/
def bigEndian (width value : Nat) : Bytes :=
  (littleEndian width value).reverse

/-- The number whose base-256 digits these are, lowest first. -/
def toNat : Bytes → Nat
  | [] => 0
  | byte :: rest => byte.toNat + 256 * toNat rest

/-- The digits, lowest first, up to the highest that is not zero. -/
def significant (digits : Bytes) : Bytes :=
  (digits.reverse.dropWhile (· = 0)).reverse

/-- Two bytes, lowest first. -/
example : littleEndian 2 0x0100 = [0x00, 0x01] := rfl

/-- A digit that does not fit the width is dropped. -/
example : littleEndian 1 0x0100 = [0x00] := rfl

@[simp] theorem length_littleEndian (width value : Nat) :
    (littleEndian width value).length = width := by
  induction width generalizing value with
  | zero => rfl
  | succ width induction => simp [littleEndian, induction]

@[simp] theorem length_bigEndian (width value : Nat) :
    (bigEndian width value).length = width := by
  simp [bigEndian]

end Bytes

/-- A run of bytes of a known length, which is laid out only where it is looked at. -/
structure ByteRun where
  laidOut : Thunk Bytes
  length : Nat
  length_laidOut : laidOut.get.length = length

namespace ByteRun

def bytes (run : ByteRun) : Bytes :=
  run.laidOut.get

theorem length_bytes (run : ByteRun) : run.bytes.length = run.length :=
  run.length_laidOut

def ofBytes (bytes : Bytes) : ByteRun :=
  ⟨.pure bytes, bytes.length, rfl⟩

@[simp] theorem bytes_ofBytes (bytes : Bytes) : (ofBytes bytes).bytes = bytes :=
  rfl

/-- The first bytes of a run. -/
def take (count : Nat) (run : ByteRun) : ByteRun where
  laidOut := .mk fun _ => run.bytes.take count
  length := min count run.length
  length_laidOut := by
    rw [← run.length_bytes]
    exact List.length_take

@[simp] theorem bytes_take (count : Nat) (run : ByteRun) :
    (run.take count).bytes = run.bytes.take count :=
  rfl

/-- The bytes of one run after the other. -/
def join (runs : List ByteRun) : Bytes :=
  runs.flatMap bytes

theorem join_cons (run : ByteRun) (rest : List ByteRun) :
    join (run :: rest) = run.bytes ++ join rest :=
  List.flatMap_cons

theorem join_append (runs more : List ByteRun) : join (runs ++ more) = join runs ++ join more :=
  List.flatMap_append

theorem join_singleton (run : ByteRun) : join [run] = run.bytes :=
  List.flatMap_singleton ..

end ByteRun

end PickleTrial
