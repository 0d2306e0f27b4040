import PickleTrial.Encoding.Trace
import PickleTrial.Proofs.Number.FloatText
import PickleTrial.Proofs.Number.SignedDigits
import PickleTrial.Proofs.Stream.Reading
import PickleTrial.Proofs.Text.LineEscaped

/-! The opcodes that a protocol writes. Each exists in that protocol, its lines hold no line end,
and its arguments fit their form as long as no payload is longer than the format has room for. An
integer has one opcode, in whatever form it is given. -/

namespace PickleTrial

namespace Opcode

def since : Opcode → Nat
  | stop | mark | pop | none | int _ | long _ | float _ | unicode _ | tuple | list | append | dict
  | setItem | global _ _ | reduce | put _ | get _ => 0
  | popMark | binInt _ | binInt1 _ | binInt2 _ | binFloat _ | binUnicode _ | emptyTuple
  | emptyList | appends | emptyDict | setItems | binPut _ | longBinPut _ | binGet _
  | longBinGet _ => 1
  | proto _ | newTrue | newFalse | long1 _ | long4 _ | tuple1 | tuple2 | tuple3 => 2
  | shortBinBytes _ | binBytes _ => 3
  | frame _ | shortBinUnicode _ | binUnicode8 _ | binBytes8 _ | emptySet | addItems | stackGlobal
  | memoize => 4
  | byteArray8 _ => 5

/-- Opcodes that give the object on top of the stack a slot. -/
def stores : Opcode → Bool
  | put _ | binPut _ | longBinPut _ | memoize => true
  | _ => false

def putSlot? : Opcode → Option Nat
  | .put line => Numeral.ofDecimal? (Quoted.latin1 line)
  | .binPut slot => some slot.toNat
  | .longBinPut slot => some slot.toNat
  | _ => Option.none

def getSlot? : Opcode → Option Nat
  | .get line => Numeral.ofDecimal? (Quoted.latin1 line)
  | .binGet slot => some slot.toNat
  | .longBinGet slot => some slot.toNat
  | _ => Option.none

/-- Opcodes that stand around a value and not in it. -/
def surrounds : Opcode → Bool
  | proto _ | frame _ | stop => true
  | _ => false

/-- The lengths for which a protocol has room. Texts and byte strings of 4 GiB need protocol 4,
and integers of that length have no form at all. -/
def WithinLimits (protocol : Protocol) : Opcode → Prop
  | frame length => length < 2 ^ 64
  | long1 payload | long4 payload => payload.length < 2 ^ 32
  | shortBinBytes payload | binBytes payload | binBytes8 payload | byteArray8 payload =>
      payload.length < 2 ^ 64 ∧ (protocol.version < 4 → payload.length < 2 ^ 32)
  | shortBinUnicode content | binUnicode content | binUnicode8 content =>
      content.utf8ByteSize < 2 ^ 64 ∧ (protocol.version < 4 → content.utf8ByteSize < 2 ^ 32)
  | _ => True

instance (protocol : Protocol) (opcode : Opcode) : Decidable (opcode.WithinLimits protocol) := by
  cases opcode <;> (dsimp only [WithinLimits]; infer_instance)

/-- A protocol has room for every payload that fits in one of its opcodes. -/
theorem withinLimits_of_fits {protocol : Protocol} {opcode : Opcode}
    (since : opcode.since ≤ protocol.version) (fits : opcode.Fits) :
    opcode.WithinLimits protocol := by
  cases opcode
  all_goals first
    | trivial
    | simp only [WithinLimits, Fits, Opcode.since] at since fits ⊢
      omega

/-- What is true of every opcode that a protocol writes within a value. -/
structure Emitted (protocol : Protocol) (opcode : Opcode) : Prop where
  since : opcode.since ≤ protocol.version
  lines : ∀ line ∈ opcode.lines, 0x0a ∉ line
  fits : opcode.WithinLimits protocol → opcode.Fits
  inside : opcode.surrounds = false

/-- An opcode within a value that leaves the memo alone. -/
structure Plain (protocol : Protocol) (opcode : Opcode) : Prop extends
    Emitted protocol opcode where
  keeps : opcode.stores = false

theorem Plain.bare {protocol : Protocol} {opcode : Opcode}
    (since : opcode.since ≤ protocol.version) (lines : opcode.lines = [])
    (fits : opcode.Fits) (inside : opcode.surrounds = false)
    (keeps : opcode.stores = false) : opcode.Plain protocol where
  since := since
  lines := by simp [lines]
  fits _ := fits
  inside := inside
  keeps := keeps

private theorem Plain.line {protocol : Protocol} {opcode : Opcode} {line : Bytes}
    (since : opcode.since = 0) (lines : opcode.lines = [line]) (noEnd : 0x0a ∉ line)
    (fits : opcode.Fits) (inside : opcode.surrounds = false)
    (keeps : opcode.stores = false) : opcode.Plain protocol where
  since := by omega
  lines := by simp [lines, noEnd]
  fits _ := fits
  inside := inside
  keeps := keeps

private theorem Plain.counted {protocol : Protocol} {opcode : Opcode}
    (since : opcode.since ≤ protocol.version) (lines : opcode.lines = [])
    (fits : opcode.WithinLimits protocol → opcode.Fits) (inside : opcode.surrounds = false)
    (keeps : opcode.stores = false) : opcode.Plain protocol where
  since := since
  lines := by simp [lines]
  fits := fits
  inside := inside
  keeps := keeps

end Opcode

namespace Protocol

variable (protocol : Protocol)

/-! ## The opcodes of values -/

theorem boolOpcode_plain (value : Bool) : (protocol.boolOpcode value).Plain protocol := by
  rw [boolOpcode]
  split
  · cases value
    · exact .bare (by assumption) rfl trivial rfl rfl
    · exact .bare (by assumption) rfl trivial rfl rfl
  · cases value
    · exact .line rfl rfl (by decide) trivial rfl rfl
    · exact .line rfl rfl (by decide) trivial rfl rfl

def longOpcode (value : Int) : Opcode :=
  payloadOpcode (Integer.twosComplement value)

/-- The opcode of an integer, whatever word or digits it comes from. -/
def intOpcode (value : Int) : Opcode :=
  let line := LineEscaped.ascii (Numeral.signedDecimal value)
  if Integer.FitsInt32 value then
    if protocol.version = 0 then .int line
    else if 0 ≤ value ∧ value ≤ 0xff then .binInt1 (BitVec.ofInt 8 value)
    else if 0 ≤ value ∧ value ≤ 0xffff then .binInt2 (BitVec.ofInt 16 value)
    else .binInt (BitVec.ofInt 32 value)
  else if 2 ≤ protocol.version then longOpcode value
  else .long (line ++ LineEscaped.ascii ['L'])

def int (value : Int) : List Step :=
  [.op (protocol.intOpcode value)]

private theorem longOpcode_plain (value : Int) (recent : 2 ≤ protocol.version) :
    (longOpcode value).Plain protocol := by
  simp only [longOpcode, payloadOpcode]
  split
  · exact .counted recent rfl (fun _ => by simp only [Opcode.Fits]; omega) rfl rfl
  · exact .counted recent rfl (fun within => within) rfl rfl

private theorem newline_notMem_signedDecimal (value : Int) :
    0x0a ∉ LineEscaped.ascii (Numeral.signedDecimal value) :=
  LineEscaped.newline_notMem_ascii fun _ => Numeral.isPrintable_of_mem_signedDecimal

theorem intOpcode_plain (value : Int) : (protocol.intOpcode value).Plain protocol := by
  simp only [intOpcode]
  split
  · split
    · exact .line rfl rfl (newline_notMem_signedDecimal value) trivial rfl rfl
    · rename_i binary
      have recent : 1 ≤ protocol.version := Nat.pos_of_ne_zero binary
      split
      · exact .bare recent rfl trivial rfl rfl
      · split <;> exact .bare recent rfl trivial rfl rfl
  · split
    · exact longOpcode_plain protocol value (by assumption)
    · refine .line rfl rfl (fun member => ?_) trivial rfl rfl
      rcases List.mem_append.1 member with inDigits | inSuffix
      · exact newline_notMem_signedDecimal value inDigits
      · exact absurd inSuffix (by decide)

/-- An integer of 64 bits is written by the opcode of the integer. -/
private theorem wordOpcode_eq (word : Int64) :
    protocol.wordOpcode word = protocol.intOpcode word.toInt := by
  simp only [wordOpcode, intOpcode, longOpcode, Integer.twosComplement64_eq_twosComplement]

theorem word_eq (word : Int64) : protocol.word word = protocol.int word.toInt := by
  rw [Protocol.word, int, wordOpcode_eq]

/-- So is an integer beyond 64 bits, whether it comes from digits or from a word without a sign. -/
private theorem wideOpcode_eq {value : Int} {negative : Bool} {magnitude : Bytes} {text : List Char}
    (wide : ¬Integer.FitsInt64 value)
    (payload : Integer.shortestForm negative magnitude = Integer.twosComplement value)
    (spelled : text = Numeral.signedDecimal value) :
    protocol.wideOpcode negative magnitude text = protocol.intOpcode value := by
  have large : ¬Integer.FitsInt32 value := by
    rw [Integer.FitsInt64] at wide
    rw [Integer.FitsInt32]
    omega
  have line : LineEscaped.ascii (text ++ ['L']) =
      LineEscaped.ascii (Numeral.signedDecimal value) ++ LineEscaped.ascii ['L'] := by
    rw [spelled, LineEscaped.ascii, List.map_append]
    rfl
  simp only [wideOpcode, intOpcode, if_neg large, longOpcode, payload, line]

theorem digitsOpcode_ofInt (value : Int) :
    protocol.digitsOpcode (.ofInt value) = protocol.intOpcode value := by
  rw [digitsOpcode]
  cases fits : (SignedDigits.ofInt value).toInt64? with
  | some word =>
      simp only [wordOpcode_eq, SignedDigits.toInt64?_eq_some_iff.1 fits]
  | none =>
      exact protocol.wideOpcode_eq (SignedDigits.toInt64?_eq_none_iff.1 fits)
        (SignedDigits.shortestForm_ofInt value) (SignedDigits.text_ofInt value)

private theorem unsignedOpcode_eq (word : BitVec 64) :
    protocol.unsignedOpcode word = protocol.intOpcode word.toNat := by
  rw [unsignedOpcode]
  split
  · rename_i low
    rw [wordOpcode_eq, Int64.toInt_ofNat_of_lt low]
  · rename_i high
    have shortest := Integer.isShortest_shortestForm false (Bytes.littleEndian 8 word.toNat)
    have laidOut : (Bytes.littleEndian 8 word.toNat).toNat = word.toNat := by
      rw [Bytes.toNat_littleEndian]
      exact Nat.mod_eq_of_lt word.isLt
    rw [laidOut, if_neg Bool.false_ne_true] at shortest
    refine protocol.wideOpcode_eq ?_ (shortest.eq (Integer.isShortest_twosComplement _)) rfl
    rw [Integer.FitsInt64]
    omega

/-- Only words without a sign of 64 bits hold integers beyond those with one. -/
private theorem toInt_ofInt_value {code : IntegerCode} (narrow : code.signed ∨ code.width ≤ 4)
    (word : BitVec (8 * code.width)) :
    (Int64.ofInt (code.value word)).toInt = code.value word := by
  rw [IntegerCode.value]
  split
  · have room : (2 : Int) ^ (8 * code.width - 1) ≤ 2 ^ 63 :=
      pow_le_pow_right₀ (by decide) (by cases code <;> decide)
    have lower := word.le_toInt
    have upper := word.toInt_lt
    exact Int64.toInt_ofInt_of_le (by omega) (by omega)
  · rename_i unsigned
    have room : 2 ^ (8 * code.width) ≤ 2 ^ 32 :=
      Nat.pow_le_pow_right (by decide) (by have short := narrow.resolve_left unsigned; omega)
    have upper := word.isLt
    exact Int64.toInt_ofInt_of_le (by omega) (by omega)

/-- An item of an array is written by the opcode of the integer in its word. -/
theorem itemOpcode_eq (code : IntegerCode) (word : BitVec (8 * code.width)) :
    protocol.itemOpcode code word = protocol.intOpcode (code.value word) := by
  cases code with
  | L | Q => exact protocol.unsignedOpcode_eq word
  | _ =>
      exact (protocol.wordOpcode_eq _).trans
        (congrArg protocol.intOpcode (toInt_ofInt_value (by decide) word))

theorem floatOpcode_plain (value : Binary64) : (protocol.floatOpcode value).Plain protocol := by
  rw [floatOpcode]
  split
  · exact .line rfl rfl
      (LineEscaped.newline_notMem_ascii fun _ => FloatText.isPrintable_of_mem_text) trivial rfl rfl
  · rename_i binary
    exact .bare (Nat.pos_of_ne_zero binary) rfl trivial rfl rfl

theorem textOpcode_plain (content : String) : (protocol.textOpcode content).Plain protocol := by
  rw [textOpcode]
  split
  · exact .line rfl rfl (LineEscaped.newline_notMem_encode _) trivial rfl rfl
  · rename_i binary
    simp only
    split
    · rename_i short
      exact .counted short.2 rfl (fun _ => by simp only [Opcode.Fits]; omega) rfl rfl
    · split
      · rename_i long
        exact .counted long.2 rfl (fun within => within.1) rfl rfl
      · rename_i notLong
        refine .counted (Nat.pos_of_ne_zero binary) rfl (fun within => ?_) rfl rfl
        have narrow := within.2
        simp only [Opcode.Fits]
        omega

theorem bytesOpcode_plain (payload : Bytes) (recent : 3 ≤ protocol.version) :
    (protocol.bytesOpcode payload).Plain protocol := by
  rw [bytesOpcode]
  split
  · exact .counted recent rfl (fun _ => by simp only [Opcode.Fits]; omega) rfl rfl
  · split
    · rename_i long
      exact .counted long.2 rfl (fun within => within.1) rfl rfl
    · rename_i notLong
      refine .counted recent rfl (fun within => ?_) rfl rfl
      have narrow := within.2
      simp only [Opcode.Fits]
      omega

theorem byteArray8_plain (payload : Bytes) (recent : 5 ≤ protocol.version) :
    (Opcode.byteArray8 payload).Plain protocol :=
  .counted recent rfl (fun within => within.1) rfl rfl

theorem mark_plain : Opcode.mark.Plain protocol :=
  .bare (Nat.zero_le _) rfl trivial rfl rfl

theorem tupleOpcode_plain (count : Nat) : (protocol.tupleOpcode count).Plain protocol := by
  unfold tupleOpcode
  split
  · rename_i short
    simp only [isShortTuple, Bool.and_eq_true, decide_eq_true_eq] at short
    split <;> exact .bare short.2 rfl trivial rfl rfl
  · exact .bare (Nat.zero_le _) rfl trivial rfl rfl

theorem dropOpcodes_plain (count : Nat) :
    ∀ opcode ∈ protocol.dropOpcodes count, opcode.Plain protocol := by
  intro opcode member
  rw [dropOpcodes] at member
  split at member
  · rw [List.eq_of_mem_replicate member]
    exact .bare (Nat.zero_le _) rfl trivial rfl rfl
  · split at member
    · rw [List.eq_of_mem_replicate member]
      exact .bare (Nat.zero_le _) rfl trivial rfl rfl
    · rename_i binary
      rw [List.mem_singleton.1 member]
      exact .bare (Nat.pos_of_ne_zero binary) rfl trivial rfl rfl

theorem globalOpcode_plain (callable : Callable) :
    (Trace.globalOpcode protocol callable).Plain protocol := by
  have names : 0x0a ∉ LineEscaped.ascii callable.oldModule.toList ∧
      0x0a ∉ LineEscaped.ascii callable.module.toList ∧
      0x0a ∉ LineEscaped.ascii callable.name.toList := by
    cases callable <;> decide +kernel
  refine { since := Nat.zero_le _, lines := ?_, fits := fun _ => trivial, inside := rfl,
           keeps := rfl }
  rw [Trace.globalOpcode]
  simp only [Opcode.lines, List.mem_cons, List.not_mem_nil, or_false]
  intro line given
  rcases given with rfl | rfl
  · split
    · exact names.1
    · exact names.2.1
  · exact names.2.2

/-! ## The opcodes of the memo -/

private theorem newline_notMem_decimal (value : Nat) :
    0x0a ∉ LineEscaped.ascii (Numeral.decimal value) :=
  LineEscaped.newline_notMem_ascii fun _ => Numeral.isPrintable_of_mem_decimal

theorem getOpcode_plain (slot : Nat) : (protocol.getOpcode slot).Plain protocol := by
  rw [getOpcode]
  split
  · exact .line rfl rfl (newline_notMem_decimal slot) trivial rfl rfl
  · rename_i binary
    split <;> exact .bare (Nat.pos_of_ne_zero binary) rfl trivial rfl rfl

theorem putOpcode_emitted (slot : Nat) : (protocol.putOpcode slot).Emitted protocol := by
  rw [putOpcode]
  split
  · exact ⟨by assumption, by simp [Opcode.lines], fun _ => trivial, rfl⟩
  · split
    · exact ⟨Nat.zero_le _, by simp [Opcode.lines, newline_notMem_decimal], fun _ => trivial, rfl⟩
    · rename_i binary
      have recent : 1 ≤ protocol.version := Nat.pos_of_ne_zero binary
      split
      · exact ⟨recent, by simp [Opcode.lines], fun _ => trivial, rfl⟩
      · exact ⟨recent, by simp [Opcode.lines], fun _ => trivial, rfl⟩

theorem putOpcode_stores (slot : Nat) : (protocol.putOpcode slot).stores := by
  rw [putOpcode]
  split
  · rfl
  · split
    · rfl
    · split <;> rfl

/-! ## The slots that opcodes name -/

/-- The slot that an opcode names for a slot of the memo. -/
def carriedSlot (slot : Nat) : Nat :=
  if protocol.version = 0 ∨ slot ≤ 0xff then slot else slot % 2 ^ 32

private theorem ofDecimal?_line (slot : Nat) :
    Numeral.ofDecimal? (Quoted.latin1 (LineEscaped.ascii (Numeral.decimal slot))) = some slot := by
  rw [LineEscaped.latin1_ascii_of_isPrintable fun _ => Numeral.isPrintable_of_mem_decimal,
    Numeral.ofDecimal?_decimal]

theorem getSlot?_getOpcode (slot : Nat) :
    (protocol.getOpcode slot).getSlot? = some (protocol.carriedSlot slot) := by
  rw [getOpcode, carriedSlot]
  split
  · rename_i oldest
    rw [if_pos (Or.inl oldest)]
    exact ofDecimal?_line slot
  · rename_i binary
    split
    · rename_i small
      rw [if_pos (Or.inr small)]
      simp only [Opcode.getSlot?, BitVec.toNat_ofNat, Option.some.injEq]
      omega
    · rename_i large
      rw [if_neg (by omega)]
      simp only [Opcode.getSlot?, BitVec.toNat_ofNat]

theorem putSlot?_putOpcode (explicit : protocol.version < 4) (slot : Nat) :
    (protocol.putOpcode slot).putSlot? = some (protocol.carriedSlot slot) := by
  rw [putOpcode, carriedSlot]
  rw [if_neg (Nat.not_le.2 explicit)]
  split
  · rename_i oldest
    rw [if_pos (Or.inl oldest)]
    exact ofDecimal?_line slot
  · rename_i binary
    split
    · rename_i small
      rw [if_pos (Or.inr small)]
      simp only [Opcode.putSlot?, BitVec.toNat_ofNat, Option.some.injEq]
      omega
    · rename_i large
      rw [if_neg (by omega)]
      simp only [Opcode.putSlot?, BitVec.toNat_ofNat]

theorem carriedSlot_le (slot : Nat) : protocol.carriedSlot slot ≤ slot := by
  rw [carriedSlot]
  split
  · exact Nat.le_refl _
  · exact Nat.mod_le _ _

theorem carriedSlot_carriedSlot (slot : Nat) :
    protocol.carriedSlot (protocol.carriedSlot slot) = protocol.carriedSlot slot := by
  unfold carriedSlot
  split
  · rfl
  · split
    · rfl
    · rw [Nat.mod_mod]

end Protocol

end PickleTrial
