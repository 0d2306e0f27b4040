import PickleTrial.Trial.Case
import PickleTrial.Trial.Error

/-! The two files through which values and reports change hands: the stream of a value for the
unpickler, and the report of the unpickler. -/

namespace PickleTrial

namespace Files

private def onPath {α : Type} (path : String) (result : Except FileError α) :
    Except TrialError α :=
  result.mapError (TrialError.files path)

/-- Write the stream of a case to a file, in place of what is there. A value that cannot be
encoded leaves the files as they are. -/
def writeStream (files : Files) (case : TrialCase) (version : Nat) (path : String) :
    Except TrialError (Bytes × Files) := do
  let stream ← (case.graph.pickle version case.root).mapError
    (TrialError.encode case.render version)
  let files ← onPath path (files.write path stream)
  return (stream, files)

/-- The answer in the report file. A file that is not there is an answer too. -/
def readReport (files : Files) (path : String) : Except TrialError Answer :=
  match files.read path with
  | .ok bytes => .ok (Answer.ofBytes bytes)
  | .error .missing => .ok (.failed .noReport)
  | .error error => .error (.files path error)

def clear (files : Files) (path : String) : Except TrialError Files :=
  match files.remove path with
  | .ok files => .ok files
  | .error .missing => .ok files
  | .error error => .error (.files path error)

end Files

end PickleTrial
