import PickleTrial.Bytes

/-! Text as UTF-8, which reads back. -/

namespace PickleTrial.Utf8

def encode (text : String) : Bytes :=
  text.toList.flatMap String.utf8EncodeChar

/-- The text that bytes encode, `none` where they encode no text. -/
def decode? (bytes : Bytes) : Option String :=
  String.fromUTF8? ⟨bytes.toArray⟩

private theorem encode_eq_toByteArray (text : String) :
    encode text = text.toByteArray.data.toList := by
  conv => rhs; rw [← String.ofList_toList (s := text), String.toByteArray_ofList]
  simp [encode, List.utf8Encode]

@[simp] theorem length_encode (text : String) : (encode text).length = text.utf8ByteSize := by
  rw [encode_eq_toByteArray, Array.length_toList]
  rfl

@[simp] theorem decode?_encode (text : String) : decode? (encode text) = some text := by
  have bytes : (⟨(encode text).toArray⟩ : ByteArray) = text.toByteArray := by
    rw [encode_eq_toByteArray, Array.toArray_toList]
  rw [decode?, bytes, String.fromUTF8?, dif_pos text.isValidUTF8]
  rfl

theorem decode?_eq_some_iff {bytes : Bytes} {text : String} :
    decode? bytes = some text ↔ encode text = bytes := by
  refine ⟨fun decoded => ?_, fun encoded => encoded ▸ decode?_encode text⟩
  rw [decode?, String.fromUTF8?] at decoded
  split at decoded
  · cases decoded
    exact encode_eq_toByteArray _
  · cases decoded

theorem encode_injective : Function.Injective encode := by
  intro left right same
  have decoded := decode?_eq_some_iff.2 same.symm
  rw [decode?_encode, Option.some.injEq] at decoded
  exact decoded

example : encode "é" = [0xc3, 0xa9] := by decide +kernel

example : decode? [0xc3, 0xa9] = some "é" := by decide +kernel

/-- A character is never read from a longer form than it needs. -/
example : decode? [0xc0, 0x80] = none := by decide +kernel

end PickleTrial.Utf8
