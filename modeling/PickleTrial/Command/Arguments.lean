import PickleTrial.Trial.Settings

/-! The arguments of the command. An option is two dashes and a name; its value stands behind an
equals sign or in the next argument. There are no other arguments. -/

namespace PickleTrial

inductive Format
  | text
  | json
deriving DecidableEq

structure Arguments where
  /-- The program to try. -/
  oracle : Option String := none
  /-- What the program is given before the two paths. -/
  oracleArguments : List String := []
  directory : String := "."
  lowest : Nat := Protocol.lowest
  highest : Nat := Protocol.highest
  /-- The groups to try; none named means all. -/
  groups : List String := []
  /-- The time limit of the program, in seconds. -/
  timeout : Option Nat := none
  dump : Bool := false
  list : Bool := false
  format : Format := .text
  strict : Bool := false
deriving DecidableEq

namespace Arguments

/-! ## Options -/

inductive OptionName
  | oracle
  | oracleArg
  | workDir
  | minProtocol
  | maxProtocol
  | group
  | timeout
  | dump
  | list
  | format
  | strict
deriving DecidableEq

namespace OptionName

def ofText? : String → Option OptionName
  | "oracle" => some oracle
  | "oracle-arg" => some oracleArg
  | "work-dir" => some workDir
  | "min-protocol" => some minProtocol
  | "max-protocol" => some maxProtocol
  | "group" => some group
  | "timeout" => some timeout
  | "dump" => some dump
  | "list" => some list
  | "format" => some format
  | "strict" => some strict
  | _ => none

def takesValue : OptionName → Bool
  | dump | list | strict => false
  | _ => true

def repeatable : OptionName → Bool
  | oracleArg | group => true
  | _ => false

/-- Options that take the next argument for their value whatever it looks like. -/
def takesAnything : OptionName → Bool
  | oracleArg => true
  | _ => false

end OptionName

/-- Whether an argument looks like an option; a single dash does not. -/
def looksLikeOption (argument : String) : Bool :=
  argument ≠ "-" && argument.toList.head? = some '-'

/-- The option in an argument, and the value behind an equals sign. -/
def option? (argument : String) : Option (OptionName × Option String) :=
  match argument.toList with
  | '-' :: '-' :: body =>
      let name := body.takeWhile (· ≠ '=')
      let value :=
        match body.dropWhile (· ≠ '=') with
        | [] => none
        | _ :: value => some (String.ofList value)
      (OptionName.ofText? (String.ofList name)).map fun name => (name, value)
  | _ => none

/-- The options given, in order, each with its value if it takes one. Two dashes alone may end
them. -/
def options? : List String → Option (List (OptionName × String))
  | [] => some []
  | argument :: rest =>
      if argument = "--" then (if rest = [] then some [] else none)
      else
        match option? argument with
        | none => none
        | some (name, attached) =>
            if name.takesValue then
              match attached, rest with
              | some value, rest => (options? rest).map ((name, value) :: ·)
              | none, value :: rest =>
                  if name.takesAnything || !looksLikeOption value then
                    (options? rest).map ((name, value) :: ·)
                  else none
              | none, [] => none
            else if attached.isSome then none
            else (options? rest).map ((name, "") :: ·)

def isRepetitionValid (options : List (OptionName × String)) : Bool :=
  options.all fun option =>
    option.1.repeatable || (options.filter fun other => other.1 = option.1).length = 1

/-! ## Values -/

def path? (value : String) : Option String :=
  if value = "" then none else some value

/-- A number of eight bits. -/
def protocol? (value : String) : Option Nat :=
  ((Integer.ofLiteral? value.toList).filter fun number => 0 ≤ number ∧ number ≤ 255).map
    Int.toNat

/-- A number of 64 bits; not even zero may have a minus sign. -/
def seconds? (value : String) : Option Nat :=
  if value.toList.head? = some '-' then none
  else ((Integer.ofLiteral? value.toList).filter (· < 0x10000000000000000)).map Int.toNat

def format? : String → Option Format
  | "text" => some .text
  | "json" => some .json
  | _ => none

def withOption? (arguments : Arguments) (option : OptionName × String) : Option Arguments :=
  let value := option.2
  match option.1 with
  | .oracle => (path? value).map fun value => { arguments with oracle := some value }
  | .oracleArg =>
      some { arguments with oracleArguments := arguments.oracleArguments ++ [value] }
  | .workDir => (path? value).map fun value => { arguments with directory := value }
  | .minProtocol => (protocol? value).map fun value => { arguments with lowest := value }
  | .maxProtocol => (protocol? value).map fun value => { arguments with highest := value }
  | .group => some { arguments with groups := arguments.groups ++ [value] }
  | .timeout => (seconds? value).map fun value => { arguments with timeout := some value }
  | .dump => some { arguments with dump := true }
  | .list => some { arguments with list := true }
  | .format => (format? value).map fun value => { arguments with format := value }
  | .strict => some { arguments with strict := true }

/-- The arguments in a command line, `none` where it cannot be understood. Where
they name no program the fallback does, if there is one. -/
def parse? (commandLine : List String) (fallback : Option String) : Option Arguments := do
  let options ← options? commandLine
  let arguments ←
    if isRepetitionValid options then options.foldlM withOption? ({ } : Arguments) else none
  match arguments.oracle, fallback with
  | none, some value => return { arguments with oracle := some (← path? value) }
  | _, _ => return arguments

example : (parse? ["--list", "--group=a", "--group", "b"] none).map Arguments.groups =
    some ["a", "b"] := by decide +kernel

example : parse? ["--list", "--list"] none = none := by decide +kernel

example : (parse? ["--oracle-arg", "--list"] none).map Arguments.list = some false := by
  decide +kernel

end Arguments

end PickleTrial
