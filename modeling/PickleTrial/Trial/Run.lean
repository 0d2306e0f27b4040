import PickleTrial.Text.HexDump
import PickleTrial.Trial.Corpus
import PickleTrial.Trial.Oracle
import PickleTrial.Trial.Settings
import PickleTrial.Trial.Summary

/-! Runs: every case of a corpus under every protocol of a range. For each case its stream is
written, the oracle answers, and the verdict on the answer is counted. A case that does not pass
never stops a run; an error does. The transcript tells what happens while it happens, and both
hand-off files are gone when the run is over, whichever way it ends. -/

namespace PickleTrial

/-- What a run works on: the files, the state of the oracle and the sink of the transcript. -/
structure Bench (σ : Type) where
  files : Files
  state : σ
  transcript : Sink

abbrev RunM (σ : Type) := ExceptT TrialError (StateM (Bench σ))

namespace Run

variable {σ : Type}

def say (line : String) : RunM σ Unit := do
  let bench ← get
  let (written, transcript) := bench.transcript.write (.ofBytes (Utf8.encode (line ++ "\n")))
  set { bench with transcript }
  match written with
  | .ok () => return
  | .error error => throw (.transcript error)

def handOver (settings : Settings) (version : Nat) (case : TrialCase) : RunM σ Bytes := do
  let bench ← get
  match bench.files.writeStream case version settings.streamPath with
  | .ok (stream, files) =>
      set { bench with files }
      return stream
  | .error error => throw error

def ask (settings : Settings) (oracle : Oracle σ) : RunM σ Answer := do
  let bench ← get
  let (answer, around) :=
    oracle.answer settings.streamPath settings.reportPath ⟨bench.files, bench.state⟩
  set { bench with files := around.files, state := around.state }
  match answer with
  | .ok answer => return answer
  | .error error => throw error

/-- Try one case, count it, and tell of it and report it if it does not pass. -/
def runCase (settings : Settings) (oracle : Oracle σ) (version : Nat) (label : String)
    (progress : Progress) (case : TrialCase) : RunM σ Progress := do
  let progress := progress.tried
  let value := case.render
  say ("testing " ++ value)
  let stream ← handOver settings version case
  let verdict := case.judge (← ask settings oracle)
  if verdict.passed then return progress
  let progress := progress.missed
  let diagnostics := verdict.diagnostics
  diagnostics.forM fun line => say ("  " ++ line)
  if settings.dump then
    (HexDump.rows stream).forM fun row => say ("    " ++ String.ofList row)
  return progress.reported { version, label, value, diagnostics }

def runGroup (settings : Settings) (oracle : Oracle σ) (version : Nat) (progress : Progress)
    (group : CaseGroup) : RunM σ Progress := do
  say ("CHECK CLASS: " ++ group.label)
  group.cases.foldlM (runCase settings oracle version group.label) progress

def runProtocol (settings : Settings) (oracle : Oracle σ) (corpus : Corpus) (summary : Summary)
    (version : Nat) : RunM σ Summary := do
  say ""
  say ("PICKLE PROTOCOL: " ++ Numeral.natural version)
  let progress ← corpus.groups.foldlM (runGroup settings oracle version)
    { tally := { version }, summary }
  say ("number of errors for protocol " ++ Numeral.natural version ++ ": " ++
    Numeral.natural progress.tally.errors)
  return progress.close

def runAll (settings : Settings) (oracle : Oracle σ) (corpus : Corpus) : RunM σ Summary := do
  let summary ← settings.protocols.versions.foldlM (runProtocol settings oracle corpus) {}
  say ""
  say ("Total number of errors: " ++ Numeral.natural summary.totalErrors)
  return summary

/-- Remove a hand-off file that is there. -/
def discard (files : Files) (path : String) : Files :=
  (files.remove path).toOption.getD files

/-- Remove both hand-off files. -/
def cleanUp (settings : Settings) (bench : Bench σ) : Bench σ :=
  { bench with
    files := discard (discard bench.files settings.streamPath) settings.reportPath }

end Run

def run {σ : Type} (settings : Settings) (oracle : Oracle σ) (corpus : Corpus)
    (bench : Bench σ) : Except TrialError Summary × Bench σ :=
  let (result, bench) := (Run.runAll settings oracle corpus).run.run bench
  (result, Run.cleanUp settings bench)

end PickleTrial
