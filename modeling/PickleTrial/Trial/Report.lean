import PickleTrial.Text.Displayed
import PickleTrial.Text.Lines
import PickleTrial.Text.Utf8
import PickleTrial.Number.Binary

/-! Reports: what an unpickler under trial tells about the value it read, in two lines of UTF-8.
The first names the type of the value and the second shows the value. -/

namespace PickleTrial

structure Report where
  typeLine : String
  textLine : String
deriving DecidableEq

namespace Report

/-- The two lines of a text, or how many lines it has instead. -/
def ofText (text : String) : Except Nat Report :=
  match Lines.split text.toList with
  | [typeLine, textLine] => .ok ⟨String.ofList typeLine, String.ofList textLine⟩
  | lines => .error lines.length

end Report

/-- Why a trial gave no report. -/
inductive Failure
  | noReport
  | malformed (lines : Nat)
  | notUtf8
  | timedOut (milliseconds : Nat)
deriving DecidableEq

namespace Failure

/-- A time in seconds as a floating-point number: the whole seconds, and the part of a second
rounded before it is added. -/
def seconds (milliseconds : Nat) : Binary64 :=
  let whole := (Binary64.nearest (milliseconds / 1000) 1).quotient
  let part := (Binary64.nearest (milliseconds % 1000 * 1000000) 1000000000).quotient
  Binary64.nearest (whole.1 * part.2 + part.1 * whole.2) (whole.2 * part.2)

/-- The number of seconds with one decimal. -/
def secondsText (milliseconds : Nat) : String :=
  let quotient := (seconds milliseconds).quotient
  String.ofList (Rounding.oneDecimal quotient.1 quotient.2)

def message : Failure → String
  | noReport => "No outputfile. Skipping to next test."
  | malformed lines =>
      "MALFORMED REPORT, expected 2 lines, got " ++ String.ofList (Numeral.decimal lines)
  | notUtf8 => "MALFORMED REPORT, not valid UTF-8"
  | timedOut milliseconds => "TIMEOUT, oracle killed after " ++ secondsText milliseconds ++ "s"

example : (timedOut 850).message = "TIMEOUT, oracle killed after 0.8s" := by decide +kernel

end Failure

/-- What a trial of one value gives. -/
inductive Answer
  | report (report : Report)
  | failed (failure : Failure)
deriving DecidableEq

/-- The answer in the bytes of a report file. -/
def Answer.ofBytes (bytes : Bytes) : Answer :=
  match Utf8.decode? bytes with
  | none => .failed .notUtf8
  | some text =>
      match Report.ofText text with
      | .ok found => .report found
      | .error lines => .failed (.malformed lines)

end PickleTrial
