import PickleTrial.Command.Arguments
import PickleTrial.Trial.Reference
import PickleTrial.Trial.Run

/-! The command: it lists the reference corpus, or runs it against a program. -/

namespace PickleTrial

/-- What a command finds around it. -/
structure Environment where
  files : Files
  /-- The program to try where no option names one. -/
  oracleVariable : Option String := none
  launch : Launcher

/-- What a command leaves behind. -/
structure CommandResult where
  /-- Zero for a finished command, one for failed cases where they are to count, and two for a
  command that could not be carried out. -/
  status : Nat
  output : Bytes := []
  errors : Bytes := []
  files : Files

namespace Command

def lines (lines : List String) : String :=
  String.join (lines.map (· ++ "\n"))

/-! ## The listing -/

def listGroup (group : CaseGroup) : List String :=
  ("## " ++ group.label) ::
    group.cases.map (fun case => "  " ++ case.render ++ " -> " ++ Displayed.text case.text) ++
    [""]

def listText (corpus : Corpus) : String :=
  lines (corpus.groups.flatMap listGroup ++
    ["Total: " ++ Numeral.natural corpus.size ++ " cases in " ++
      Numeral.natural corpus.groups.length ++ " groups"])

def listJson (corpus : Corpus) : String :=
  lines [Json.array (corpus.groups.flatMap fun group =>
    group.cases.map fun case => Json.object [
      ("group", Json.string group.label),
      ("value", Json.string case.render),
      ("expected", Json.string case.text)])]

def listing (format : Format) (corpus : Corpus) : String :=
  match format with
  | .text => listText corpus
  | .json => listJson corpus

/-! ## The run -/

/-- The settings and the command of a run. -/
def prepare (arguments : Arguments) : Except TrialError (Settings × ProgramCommand) :=
  match arguments.oracle with
  | none => .error .noOracle
  | some program => do
      let protocols ← ProtocolRange.of? arguments.lowest arguments.highest
      return ({ directory := arguments.directory, protocols, dump := arguments.dump },
        { program
          arguments := arguments.oracleArguments
          timeLimit := arguments.timeout.map (1000 * ·) })

/-- The line that tells why a command could not be carried out. -/
def complaint (error : TrialError) : Bytes :=
  Utf8.encode ("Error: " ++ error.message ++ "\n")

def refused (files : Files) (error : TrialError) : CommandResult :=
  { status := 2, errors := complaint error, files }

/-- The status of a command whose run is finished. -/
def statusOf (arguments : Arguments) (summary : Summary) : Nat :=
  if arguments.strict && !summary.passed then 1 else 0

/-- What a run leaves behind. The transcript is the output, or gives way to the summary. -/
def conclude {σ : Type} (arguments : Arguments) :
    Except TrialError Summary × Bench σ → CommandResult
  | (.ok summary, bench) =>
      let transcript := bench.transcript.contents
      let status := statusOf arguments summary
      match arguments.format with
      | .text => { status, output := transcript, files := bench.files }
      | .json =>
          { status
            output := Utf8.encode (summary.json ++ "\n")
            errors := transcript
            files := bench.files }
  | (.error error, bench) =>
      let transcript := bench.transcript.contents
      match arguments.format with
      | .text =>
          { status := 2, output := transcript, errors := complaint error, files := bench.files }
      | .json => { status := 2, errors := transcript ++ complaint error, files := bench.files }

/-- Run the corpus; the oracle is left in the state after it. -/
def runCorpus {σ : Type} (arguments : Arguments) (settings : Settings) (oracle : Oracle σ)
    (around : Surroundings σ) (corpus : Corpus) : CommandResult × σ :=
  let ended := run settings oracle corpus
    { files := around.files, state := around.state, transcript := {} }
  (conclude arguments ended, ended.2.state)

/-- Carry a command out with what a program answers, whatever it does when it is consulted. -/
def executeOn {σ : Type} (corpus : Corpus) (arguments : Arguments)
    (consult : ProgramCommand → Oracle σ) (around : Surroundings σ) : CommandResult × σ :=
  match corpus.unknown arguments.groups with
  | label :: _ => (refused around.files (.unknownGroup label), around.state)
  | [] =>
      let corpus := corpus.restrict arguments.groups
      if arguments.list then
        ({ status := 0
           output := Utf8.encode (listing arguments.format corpus)
           files := around.files }, around.state)
      else
        match prepare arguments with
        | .error error => (refused around.files error, around.state)
        | .ok (settings, command) =>
            runCorpus arguments settings (consult command) around corpus

/-- Carry out what a command line says, where it can be understood. -/
def executeWith? {σ : Type} (commandLine : List String) (fallback : Option String)
    (consult : ProgramCommand → Oracle σ) (around : Surroundings σ) :
    Option (CommandResult × σ) :=
  (Arguments.parse? commandLine fallback).map fun arguments =>
    executeOn Reference.corpus arguments consult around

def execute? (commandLine : List String) (environment : Environment) : Option CommandResult :=
  let consult (command : ProgramCommand) := command.oracle environment.launch
  (executeWith? commandLine environment.oracleVariable consult ⟨environment.files, ()⟩).map
    Prod.fst

end Command

end PickleTrial
