import PickleTrial.Command.Execute
import PickleTrial.Proofs.Trial.Course

/-! What the status of a command tells, whatever its arguments are. A command is refused for the
first thing that is wrong with it, before anything is started; a listing needs nothing else; and a
run ends with its error, or with a status that counts its failed cases where they are to count. -/

namespace PickleTrial

variable {σ : Type}

/-- What a run begins with. -/
def Surroundings.bench (around : Surroundings σ) : Bench σ where
  files := around.files
  state := around.state
  transcript := {}

namespace Run

end Run

namespace Command

/-! ## What is asked for -/

/-- No group of the corpus has the label. -/
def Unknown (corpus : Corpus) (label : String) : Prop :=
  ∀ group ∈ corpus.groups, group.label ≠ label

/-- The groups that are asked for, in the order of the corpus. -/
def asked (corpus : Corpus) (arguments : Arguments) : Corpus where
  groups := corpus.groups.filter fun group =>
    arguments.groups = [] ∨ group.label ∈ arguments.groups

/-- The corpus is listed, with no group named that it does not have. -/
structure Lists (corpus : Corpus) (arguments : Arguments) : Prop where
  known : ∀ label ∈ arguments.groups, ¬Unknown corpus label
  list : arguments.list = true

/-- A run is started with these settings and with the program that is asked for. -/
structure Starts (corpus : Corpus) (arguments : Arguments) (settings : Settings)
    (command : ProgramCommand) : Prop where
  known : ∀ label ∈ arguments.groups, ¬Unknown corpus label
  runs : arguments.list = false
  program : arguments.oracle = some command.program
  given : command.arguments = arguments.oracleArguments
  timeLimit : command.timeLimit = arguments.timeout.map (1000 * ·)
  directory : settings.directory = arguments.directory
  lowest : settings.protocols.lowest = arguments.lowest
  highest : settings.protocols.highest = arguments.highest
  dump : settings.dump = arguments.dump

section Corpora

variable {corpus : Corpus} {arguments : Arguments} {label : String} {labels : List String}

end Corpora

/-! ## What becomes of it -/

section Cases

variable {corpus : Corpus} {arguments : Arguments} {settings : Settings}
  {command : ProgramCommand}

variable {consult : ProgramCommand → Oracle σ} {around : Surroundings σ}

end Cases

/-! ## What is left behind -/

section Concluded

variable (arguments : Arguments)

end Concluded

section Executed

variable (corpus : Corpus) (arguments : Arguments) (consult : ProgramCommand → Oracle σ)
  (around : Surroundings σ)

end Executed

end Command

end PickleTrial
