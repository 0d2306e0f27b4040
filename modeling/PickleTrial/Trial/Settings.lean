import PickleTrial.Trial.Error

/-! What a run needs to know beside the corpus and the unpickler. -/

namespace PickleTrial

/-- The protocols of a run, a range that is not empty and within what there is. -/
structure ProtocolRange where
  lowest : Nat := Protocol.lowest
  highest : Nat := Protocol.highest
  nonempty : lowest ≤ highest := by decide
  supported : highest ≤ Protocol.highest := by decide
deriving DecidableEq

namespace ProtocolRange

def of? (lowest highest : Nat) : Except TrialError ProtocolRange :=
  if valid : lowest ≤ highest ∧ highest ≤ Protocol.highest then
    .ok { lowest, highest, nonempty := valid.1, supported := valid.2 }
  else .error (.protocolRange lowest highest)

def versions (range : ProtocolRange) : List Nat :=
  List.range' range.lowest (range.highest + 1 - range.lowest)

end ProtocolRange

structure Settings where
  /-- The directory of the hand-off files. -/
  directory : String := "."
  protocols : ProtocolRange := {}
  /-- Whether the stream of a case that fails is shown in the transcript. -/
  dump : Bool := false

namespace Settings

def streamPath (settings : Settings) : String :=
  joinPath settings.directory "pickledata.txt"

def reportPath (settings : Settings) : String :=
  joinPath settings.directory "resultdata.txt"

example : ({ } : Settings).streamPath = "./pickledata.txt" := by decide +kernel

end Settings

end PickleTrial
