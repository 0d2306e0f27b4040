import PickleTrial.Encoding.Encoded
import PickleTrial.Graph.Render
import PickleTrial.Trial.Report

/-! Trial cases: a value, with the type and the text by which an unpickler must report it, and the
verdict on what it does report. -/

namespace PickleTrial

structure TrialCase where
  graph : Graph
  root : NodeId
  /-- The type to report. -/
  label : String
  /-- The text to report. -/
  text : String

def TrialCase.render (case : TrialCase) : String :=
  case.graph.render case.root

/-- The type in the first line of a report, without the word that may introduce it. -/
def normalizeLabel (typeLine : String) : String :=
  match typeLine.toList with
  | 'c' :: 'l' :: 'a' :: 's' :: 's' :: ' ' :: label => String.ofList label
  | _ => typeLine

example : normalizeLabel "class class a" = "class a" := by decide +kernel

/-- A line of a report that is not the expected one. -/
inductive Difference
  | type (actual expected : String)
  | text (actual expected : String)
deriving DecidableEq

def Difference.message : Difference → String
  | type actual expected => "TYPE ERROR, resultclass=" ++ actual ++ " expected " ++ expected
  | text actual expected =>
      "DATA ERROR, resultstr=" ++ Displayed.text actual ++ " expected " ++ Displayed.text expected

inductive Verdict
  | pass
  /-- The differences found, at least one. -/
  | differs (differences : List Difference)
  | failed (failure : Failure)
deriving DecidableEq

namespace Verdict

def passed (verdict : Verdict) : Bool :=
  verdict = pass

def diagnostics : Verdict → List String
  | pass => []
  | differs differences => differences.map Difference.message
  | failed failure => [failure.message]

end Verdict

namespace TrialCase

/-- The differences between a report and what is expected. Both lines are compared exactly. -/
def differences (case : TrialCase) (report : Report) : List Difference :=
  let label := normalizeLabel report.typeLine
  (if label = case.label then [] else [.type label case.label]) ++
    (if report.textLine = case.text then [] else [.text report.textLine case.text])

def compare (case : TrialCase) (report : Report) : Verdict :=
  if case.differences report = [] then .pass else .differs (case.differences report)

def judge (case : TrialCase) : Answer → Verdict
  | .report report => case.compare report
  | .failed failure => .failed failure

end TrialCase

end PickleTrial
