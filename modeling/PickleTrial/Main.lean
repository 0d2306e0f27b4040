import PickleTrial.Command.Execute

/-! The command line. Listings and refusals are complete here; a run needs a way to start
programs, which this program does not have by itself, and is refused where it would start one. -/

open PickleTrial

def main (commandLine : List String) : IO UInt32 := do
  let environment : Environment :=
    { files := {}
      oracleVariable := ← IO.getEnv "PYROLITE_ORACLE"
      launch := fun _ => .error "programs cannot be started from here" }
  match Command.execute? commandLine environment with
  | none =>
      (← IO.getStderr).putStrLn "the arguments cannot be understood"
      return 2
  | some result =>
      let text (bytes : Bytes) := (Utf8.decode? bytes).getD ""
      (← IO.getStdout).putStr (text result.output)
      (← IO.getStderr).putStr (text result.errors)
      return UInt32.ofNat result.status
