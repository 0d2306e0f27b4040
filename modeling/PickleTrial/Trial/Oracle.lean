import PickleTrial.Trial.HandOff

/-! Unpicklers under trial. An oracle is given the paths of the two hand-off files and answers for
one case; it may change the files, and what it answers may depend on what it did before. -/

namespace PickleTrial

structure Surroundings (σ : Type) where
  files : Files
  state : σ

structure Oracle (σ : Type) where
  answer : (streamPath reportPath : String) → Surroundings σ →
    Except TrialError Answer × Surroundings σ

/-! ## Programs -/

/-- What a program does when it is started. -/
structure Program where
  /-- The bytes it writes to the path in its last argument, if any, from its arguments and the
  stream file. -/
  writes : (arguments : List String) → (stream : Except FileError Bytes) → Option Bytes
  exitStatus : Nat := 0
  /-- Whether it keeps running beyond any time limit. -/
  outlives : Bool := false

/-- The program that a name starts, or why it starts none. -/
abbrev Launcher := String → Except String Program

/-- The command that is run for each case. The paths of the two files follow its arguments. -/
structure ProgramCommand where
  program : String
  arguments : List String := []
  /-- The milliseconds after which the program is stopped. -/
  timeLimit : Option Nat := none

namespace ProgramCommand

/-- The files after a program ran to its end or was stopped. A report that cannot be written is
not there. -/
def filesAfter (command : ProgramCommand) (program : Program) (streamPath reportPath : String)
    (files : Files) : Files :=
  let arguments := command.arguments ++ [streamPath, reportPath]
  match program.writes arguments (files.read streamPath) with
  | some report => (files.write reportPath report).toOption.getD files
  | none => files

/-- Run the command once. The report of an earlier run is removed before; only the report counts
then, and not the exit status. -/
def run (command : ProgramCommand) (launch : Launcher) (streamPath reportPath : String)
    (files : Files) : Except TrialError Answer × Files :=
  match files.clear reportPath with
  | .error error => (.error error, files)
  | .ok files =>
      match launch command.program with
      | .error reason => (.error (.launch command.program reason), files)
      | .ok program =>
          let files := command.filesAfter program streamPath reportPath files
          match program.outlives, command.timeLimit with
          | true, some limit => (.ok (.failed (.timedOut limit)), files)
          | _, _ => (files.readReport reportPath, files)

/-- The oracle that runs the command for each case. -/
def oracle (command : ProgramCommand) (launch : Launcher) : Oracle Unit where
  answer streamPath reportPath surroundings :=
    let (answer, files) := command.run launch streamPath reportPath surroundings.files
    (answer, { surroundings with files })

end ProgramCommand

end PickleTrial
