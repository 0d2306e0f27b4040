import PickleTrial.Encoding.Sink
import PickleTrial.Trial.Files

/-! What stops a run. Whatever concerns a single case only is a verdict on it instead. -/

namespace PickleTrial

inductive TrialError
  /-- A value of the corpus cannot be encoded. -/
  | encode (value : String) (version : Nat) (error : EncodeError)
  /-- A hand-off file cannot be written, read or removed. -/
  | files (path : String) (error : FileError)
  /-- The unpickler cannot be started. -/
  | launch (program reason : String)
  | protocolRange (lowest highest : Nat)
  | unknownGroup (label : String)
  | noOracle
  | transcript (error : SinkError)
deriving DecidableEq

namespace TrialError

private def natural (value : Nat) : String :=
  String.ofList (Numeral.decimal value)

def message : TrialError → String
  | encode value version error =>
      "cannot encode " ++ value ++ " with protocol " ++ natural version ++ ": " ++ error.message
  | files path error => "I/O error on " ++ path ++ ": " ++ error.message
  | launch program reason => "failed to launch oracle " ++ program ++ ": " ++ reason
  | protocolRange lowest highest =>
      "invalid protocol range " ++ natural lowest ++ "..=" ++ natural highest ++
        " (encoder supports " ++ natural Protocol.lowest ++ "..=" ++ natural Protocol.highest ++
        ")"
  | unknownGroup label => "unknown corpus group " ++ Displayed.text label
  | noOracle => "no oracle configured; pass --oracle or set PYROLITE_ORACLE"
  | transcript error => "failed to write report: " ++ error.message

end TrialError

end PickleTrial
