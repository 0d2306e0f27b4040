import PickleTrial.Proofs.Stream.Machine

/-! What the machine makes of the opcodes that a protocol writes for values: the value they were
written for, but that protocol 0 has one NaN only. -/

namespace PickleTrial

/-- What is left of a number that goes through a stream. -/
def Binary64.through (protocol : Protocol) (number : Binary64) : Binary64 :=
  if protocol.version = 0 ∧ number.isNaN then .nan else number

def Binary32.through (protocol : Protocol) (number : Binary32) : Binary32 :=
  if protocol.version = 0 ∧ number.isNaN then .nan else number

theorem Binary32.ofWide?_through (protocol : Protocol) (number : Binary32) :
    ofWide? (number.widen.through protocol) = some (number.through protocol) := by
  rw [Binary64.through, through]
  rw [isNaN_widen]
  split
  · decide
  · exact ofWide?_widen number

namespace Machine

variable (protocol : Protocol)

/-! ## Scalars -/

theorem scalar?_boolOpcode (value : Bool) :
    scalar? (protocol.boolOpcode value) = some (.bool value) := by
  rw [Protocol.boolOpcode]
  split
  · cases value <;> rfl
  · cases value <;> decide

private theorem latin1_signedDecimal (value : Int) :
    Quoted.latin1 (LineEscaped.ascii (Numeral.signedDecimal value)) =
      Numeral.signedDecimal value :=
  LineEscaped.latin1_ascii_of_isPrintable fun _ => Numeral.isPrintable_of_mem_signedDecimal

private theorem lineValue?_signedDecimal (value : Int) :
    lineValue? (Numeral.signedDecimal value) = some (.int value) := by
  have found := Integer.ofLiteral?_signedDecimal value
  rw [lineValue?]
  split
  · rename_i equal
    rw [equal] at found
    have same : value = 0 := by simpa [Integer.ofLiteral?, Numeral.ofDecimal?] using found.symm
    subst same
    cases equal
  · split
    · rename_i equal
      rw [equal] at found
      have same : value = 1 := by simpa [Integer.ofLiteral?, Numeral.ofDecimal?] using found.symm
      subst same
      cases equal
    · rw [found]
      rfl

private theorem longValue?_signedDecimal (value : Int) :
    longValue? (Numeral.signedDecimal value ++ ['L']) = some (.int value) := by
  rw [longValue?, List.getLast?_concat, if_pos rfl, List.dropLast_concat,
    Integer.ofLiteral?_signedDecimal]
  rfl

private theorem scalar?_longOpcode (value : Int) :
    scalar? (Protocol.longOpcode value) = some (.int value) := by
  have back := Integer.ofTwosComplement_twosComplement value
  simp only [Protocol.longOpcode, Protocol.payloadOpcode]
  split <;> exact congrArg (some ∘ Value.int) back

theorem scalar?_intOpcode (value : Int) :
    scalar? (protocol.intOpcode value) = some (.int value) := by
  simp only [Protocol.intOpcode]
  split
  · rename_i fits
    split
    · exact (congrArg lineValue? (latin1_signedDecimal value)).trans
        (lineValue?_signedDecimal value)
    · split
      · rename_i small
        have same : ((BitVec.ofInt 8 value).toNat : Int) = value := by
          rw [BitVec.toNat_ofInt]
          omega
        exact congrArg (some ∘ Value.int) same
      · split
        · rename_i small
          have same : ((BitVec.ofInt 16 value).toNat : Int) = value := by
            rw [BitVec.toNat_ofInt]
            omega
          exact congrArg (some ∘ Value.int) same
        · have same : (BitVec.ofInt 32 value).toInt = value := by
            rw [BitVec.toInt_ofInt]
            exact Int.bmod_eq_of_le (by have := fits.1; omega) (by have := fits.2; omega)
          exact congrArg (some ∘ Value.int) same
  · split
    · exact scalar?_longOpcode value
    · have line : Quoted.latin1
          (LineEscaped.ascii (Numeral.signedDecimal value) ++ LineEscaped.ascii ['L']) =
          Numeral.signedDecimal value ++ ['L'] := by
        rw [LineEscaped.latin1_append, latin1_signedDecimal]
        rfl
      exact (congrArg longValue? line).trans (longValue?_signedDecimal value)

theorem scalar?_floatOpcode (number : Binary64) :
    scalar? (protocol.floatOpcode number) = some (.float (number.through protocol)) := by
  rw [Protocol.floatOpcode, Binary64.through]
  split
  · rename_i oldest
    have line : Quoted.latin1 (LineEscaped.ascii (FloatText.text number)) =
        FloatText.text number :=
      LineEscaped.latin1_ascii_of_isPrintable fun _ => FloatText.isPrintable_of_mem_text
    have found := (congrArg FloatText.read? line).trans (FloatText.read?_text number)
    simp only [oldest, true_and]
    exact congrArg (Option.map Value.float) found
  · rename_i binary
    rw [if_neg fun both => binary both.1]
    rfl

/-! ## Texts and byte strings -/

theorem created?_textOpcode (content : String) :
    created? (protocol.textOpcode content) = some (.text content) := by
  rw [Protocol.textOpcode]
  split
  · have found := LineEscaped.decode?_encode content.toList
    apply (congrArg (Option.map fun text => Object.text (String.ofList text)) found).trans
    rw [Option.map_some, String.ofList_toList]
  · simp only
    split
    · rfl
    · split <;> rfl

theorem created?_bytesOpcode (payload : Bytes) :
    created? (protocol.bytesOpcode payload) = some (.bytes payload) := by
  rw [Protocol.bytesOpcode]
  split
  · rfl
  · split <;> rfl

/-! ## Callables -/

theorem callable?_names (callable : Callable) :
    callable? callable.module callable.name = some callable := by
  cases callable <;> decide +kernel

theorem scalar?_globalOpcode (callable : Callable) :
    scalar? (Trace.globalOpcode protocol callable) = some (.callable callable) := by
  cases callable <;> (unfold Trace.globalOpcode; split <;> decide +kernel)

/-! ## Slots -/

/-- Slots that fit 32 bits are named as they are. -/
theorem carriedSlot_of_lt {slot : Nat} (fits : slot < 2 ^ 32) :
    protocol.carriedSlot slot = slot := by
  rw [Protocol.carriedSlot]
  split
  · rfl
  · exact Nat.mod_eq_of_lt fits

end Machine

end PickleTrial
