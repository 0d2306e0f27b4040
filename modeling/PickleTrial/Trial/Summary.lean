import PickleTrial.Text.Json

/-! What a finished run has to say, and how it is counted while the run is under way. -/

namespace PickleTrial

structure Tally where
  version : Nat
  attempted : Nat := 0
  errors : Nat := 0
deriving DecidableEq

structure FailedCase where
  version : Nat
  label : String
  value : String
  diagnostics : List String
deriving DecidableEq

structure Summary where
  tallies : List Tally := []
  failures : List FailedCase := []
  totalErrors : Nat := 0
deriving DecidableEq

namespace Summary

def attempted (summary : Summary) : Nat :=
  (summary.tallies.map Tally.attempted).foldr (· + ·) 0

def passed (summary : Summary) : Bool :=
  summary.totalErrors = 0

def json (summary : Summary) : String :=
  Json.object [
    ("protocols", Json.array (summary.tallies.map fun tally => Json.object [
      ("protocol", Json.number tally.version),
      ("attempted", Json.number tally.attempted),
      ("errors", Json.number tally.errors)])),
    ("failures", Json.array (summary.failures.map fun failure => Json.object [
      ("protocol", Json.number failure.version),
      ("group", Json.string failure.label),
      ("value", Json.string failure.value),
      ("diagnostics", Json.array (failure.diagnostics.map Json.string))])),
    ("total_errors", Json.number summary.totalErrors)]

end Summary

/-- How far a run has come: the tally of the protocol that is being tried, and the summary so far,
which is without that tally. -/
structure Progress where
  tally : Tally
  summary : Summary

namespace Progress

/-- One more case is tried. -/
def tried (progress : Progress) : Progress :=
  { progress with
    tally := { progress.tally with attempted := progress.tally.attempted + 1 } }

/-- One more case did not pass. -/
def missed (progress : Progress) : Progress :=
  { progress with tally := { progress.tally with errors := progress.tally.errors + 1 } }

def reported (progress : Progress) (failure : FailedCase) : Progress :=
  { progress with
    summary := { progress.summary with failures := progress.summary.failures ++ [failure] } }

/-- The summary when the protocol is done. -/
def close (progress : Progress) : Summary :=
  { progress.summary with
    tallies := progress.summary.tallies ++ [progress.tally]
    totalErrors := progress.summary.totalErrors + progress.tally.errors }

end Progress

end PickleTrial
