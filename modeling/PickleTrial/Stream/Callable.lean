/-! The callables whose calls stand for values that have no opcode of their own. -/

namespace PickleTrial

inductive Callable
  | bytes
  | byteArray
  | complex
  | set
  | moment
  | date
  | time
  | duration
  | decimal
  | array
  | encodeText
  | restoreArray
deriving DecidableEq

namespace Callable

def module : Callable → String
  | bytes | byteArray | complex | set => "builtins"
  | moment | date | time | duration => "datetime"
  | decimal => "decimal"
  | array | restoreArray => "array"
  | encodeText => "_codecs"

def name : Callable → String
  | bytes => "bytes"
  | byteArray => "bytearray"
  | complex => "complex"
  | set => "set"
  | moment => "datetime"
  | date => "date"
  | time => "time"
  | duration => "timedelta"
  | decimal => "Decimal"
  | array => "array"
  | encodeText => "encode"
  | restoreArray => "_array_reconstructor"

/-- Functions, while the others are types. The module name of a type is one string shared by
every type of the module; a function brings its own. -/
def isFunction : Callable → Bool
  | encodeText | restoreArray => true
  | _ => false

/-- The module as streams below protocol 3 know it. -/
def oldModule (callable : Callable) : String :=
  if callable.module = "builtins" then "__builtin__" else callable.module

end Callable

end PickleTrial
