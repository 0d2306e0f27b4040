import PickleTrial.Proofs.Trial.Files
import PickleTrial.Proofs.Trial.Parts

/-! Runs under a recording oracle. The record tells what the oracle was asked and what it answered;
the run does not notice that it is kept. -/

namespace PickleTrial

variable {σ α β : Type}

/-- What happened when an oracle was asked: the paths it was given, what was in the stream file, and
what it answered. -/
structure Consultation where
  streamPath : String
  reportPath : String
  stream : Except FileError Bytes
  answer : Except TrialError Answer

/-- The oracle with a record of its consultations, in order. -/
def Oracle.recorded (oracle : Oracle σ) : Oracle (σ × List Consultation) where
  answer streamPath reportPath around :=
    let (answer, after) := oracle.answer streamPath reportPath ⟨around.files, around.state.1⟩
    (answer, {
      files := after.files
      state := (after.state,
        around.state.2 ++ [⟨streamPath, reportPath, around.files.read streamPath, answer⟩]) })

namespace Bench

def recorded (bench : Bench σ) (record : List Consultation) : Bench (σ × List Consultation) :=
  { bench with state := (bench.state, record) }

def forget (bench : Bench (σ × List Consultation)) : Bench σ :=
  { bench with state := bench.state.1 }

end Bench

namespace Run

/-! ## What parts yield -/

/-- A part of a run comes to its end with a value, and leaves the bench so. -/
def Yields (part : RunM σ α) (before : Bench σ) (value : α) (after : Bench σ) : Prop :=
  part.run.run before = (.ok value, after)

section Yields

variable {before after : Bench σ} {value : α} {result : β}

theorem yields_pure : Yields (pure value : RunM σ α) before value after ↔ before = after := by
  constructor
  · intro yields
    cases yields
    rfl
  · intro same
    subst same
    rfl

theorem yields_bind {part : RunM σ α} {next : α → RunM σ β} :
    Yields (part >>= next) before result after ↔
      ∃ value middle,
        Yields part before value middle ∧ Yields (next value) middle result after := by
  unfold Yields
  rw [run_bind]
  rcases part.run.run before with ⟨_ | value, middle⟩
  · constructor
    · intro yields
      cases yields
    · intro given
      rcases given with ⟨_, _, yields, -⟩
      cases yields
  · constructor
    · exact fun yields => ⟨value, middle, rfl, yields⟩
    · intro given
      rcases given with ⟨_, _, yields, rest⟩
      cases yields
      exact rest

end Yields

private theorem extends_recorded (oracle : Oracle σ) : Extends Prod.fst oracle.recorded oracle :=
  fun _ _ _ => rfl

end Run

/-- A run under the recording oracle is the run, with the record of its consultations. -/
theorem run_recorded (settings : Settings) (oracle : Oracle σ) (corpus : Corpus)
    (bench : Bench σ) (record : List Consultation) :
    run settings oracle corpus bench =
      ((run settings oracle.recorded corpus (bench.recorded record)).1,
        (run settings oracle.recorded corpus (bench.recorded record)).2.forget) :=
  (Run.extends_recorded oracle).run_eq settings corpus (bench.recorded record)

end PickleTrial
