import PickleTrial.Proofs.Trial.Course

/-! How runs stop. A run stops at the first act that fails, and only there; its transcript is that
of the run with room for all of it, as far as there is room; and both hand-off files are gone
then. -/

namespace PickleTrial

variable {σ α β : Type}

def Bench.place : SinkPlace (Bench σ) where
  sink := transcript
  put given bench := { bench with transcript := given }
  sink_put _ _ := rfl

namespace Run

/-! ## What makes a run stop -/

/-- What can stop a run: a transcript that cannot be written, a value that cannot be encoded, a
stream that cannot be written, or an oracle that does not answer. -/
inductive Cause (settings : Settings) (oracle : Oracle σ) : TrialError → Prop
  | transcript (error : SinkError) : Cause settings oracle (.transcript error)
  | encode {version : Nat} {case : TrialCase} {error : EncodeError}
      (failed : case.graph.pickle version case.root = .error error) :
      Cause settings oracle (.encode case.render version error)
  | stream (error : FileError) : Cause settings oracle (.files settings.streamPath error)
  | unanswered {around : Surroundings σ} {error : TrialError}
      (failed : (oracle.answer settings.streamPath settings.reportPath around).1 = .error error) :
      Cause settings oracle error

variable {settings : Settings} {oracle : Oracle σ} {before after : Bench σ} {error : TrialError}

private theorem cause_of_fails {act : Act} (fails : act.Fails settings oracle before error after) :
    Cause settings oracle error := by
  cases act with
  | say line =>
      rw [Act.Fails, run_say] at fails
      have failed := congrArg Prod.fst fails
      cases written : (before.transcript.write (.ofBytes (Utf8.encode (line ++ "\n")))).1 with
      | ok =>
          rw [written] at failed
          cases failed
      | error reason =>
          rw [written] at failed
          cases failed
          exact .transcript reason
  | handOver version case stream =>
      rw [Act.Fails, run_handOver] at fails
      cases handed : before.files.writeStream case version settings.streamPath with
      | ok given =>
          rw [handed] at fails
          cases fails
      | error reason =>
          rw [handed] at fails
          cases fails
          rcases Files.writeStream_eq_error handed with ⟨reason, failed, rfl⟩ | ⟨reason, rfl⟩
          · exact .encode failed
          · exact .stream reason
  | ask answer =>
      rw [Act.Fails, run_ask] at fails
      exact .unanswered (congrArg Prod.fst fails)

private theorem Course.cause {value : α} {acts : List Act}
    (course : Course settings oracle value acts before (.error error, after)) :
    Cause settings oracle error := by
  generalize same : (Except.error error, after) = ending at course
  induction course with
  | done => cases same
  | goesOn _ _ induction => exact induction same
  | stops fails =>
      cases same
      exact cause_of_fails fails

/-! ## The transcript -/

theorem sends (settings : Settings) (oracle : Oracle σ) :
    Alike settings oracle oracle fun part _ => Sends Bench.place (.transcript .full) part where
  pure := sends_pure
  bind := sends_bind
  say line state := ⟨_, _, _, sendsFrom_write fun given => run_say line _⟩
  handOver version case state := by
    refine ⟨_, _, _, sendsFrom_quiet fun given => ?_⟩
    have files : (Bench.place.put given state).files = state.files := rfl
    rw [run_handOver, run_handOver, files]
    rcases state.files.writeStream case version settings.streamPath with _ | ⟨stream, files⟩
    · rfl
    · rfl
  ask state := by
    refine ⟨_, _, _, sendsFrom_quiet fun given => ?_⟩
    rw [run_ask, run_ask]
    rfl

/-! ## The files -/

/-- Whether a file is at a path. -/
def NoFile (files : Files) (path : String) : Prop :=
  ∀ contents, files.find path ≠ .ok (some (.file contents))

private theorem within_discard (files : Files) (path : String) :
    (discard files path).Within files := by
  rw [discard]
  cases removed : files.remove path with
  | error error => exact .refl files
  | ok after =>
      rcases Files.exists_of_remove removed with ⟨location, contents, -, there, rfl⟩
      exact Files.within_without files (Files.ne_nil_of_file there)

theorem noFile_discard (files : Files) (path : String) : NoFile (discard files path) path := by
  intro contents found
  have foundBefore := (within_discard files path).find found
  rcases Files.remove_of_find foundBefore with ⟨after, removed⟩
  rcases Files.exists_of_remove removed with ⟨location, _, located, there, rfl⟩
  have below := Files.ne_nil_of_file there
  rw [discard, removed] at found
  rcases Files.find_eq_some.1 found with ⟨other, locatedAfter, thereAfter⟩
  have same : other = location := by
    have again := (Files.within_without files below).locate locatedAfter
    rw [located] at again
    cases again
    rfl
  subst same
  rw [show (Except.ok (files.without other) : Except FileError Files).toOption.getD files =
    files.without other from rfl, Files.without_here files below] at thereAfter
  cases thereAfter

private theorem NoFile.within {files others : Files} {path : String} (none : NoFile others path)
    (within : files.Within others) : NoFile files path :=
  fun contents found => none contents (within.find found)

/-- Neither hand-off file is left. -/
private theorem noFile_cleanUp (settings : Settings) (bench : Bench σ) :
    NoFile (cleanUp settings bench).files settings.streamPath ∧
      NoFile (cleanUp settings bench).files settings.reportPath :=
  ⟨(noFile_discard _ _).within (within_discard _ _), noFile_discard _ _⟩

end Run

/-- How every run ends. -/
structure StopsHard (settings : Settings) (oracle : Oracle σ) (corpus : Corpus) : Prop where
  /-- A run does the acts of a log of its cases, in order, up to the first that fails, and ends with
  the error of that one or, if none fails, with the summary of the log. -/
  course : ∀ before, ∃ (log : RunLog) (last : Bench σ),
    log.attempts.map Attempt.subject = corpus.subjects settings.protocols ∧
      Run.Course settings oracle log.summary (log.acts settings.dump) before
        ((run settings oracle corpus before).1, last) ∧
          (run settings oracle corpus before).2 = Run.cleanUp settings last
  /-- No verdict on a case makes a run stop. -/
  cause : ∀ before error, (run settings oracle corpus before).1 = .error error →
    Run.Cause settings oracle error
  /-- The transcript is that of the run with room for all of it, as far as there is room. -/
  transcript : ∀ files state limit,
    let whole := run settings oracle corpus ⟨files, state, {}⟩
    let limited := run settings oracle corpus ⟨files, state, { limit := some limit }⟩
    limited.2.transcript.contents = whole.2.transcript.contents.take limit ∧
      limited.1 = if limit < whole.2.transcript.contents.length then .error (.transcript .full)
        else whole.1
  /-- Neither hand-off file is left. -/
  cleared : ∀ before, Run.NoFile (run settings oracle corpus before).2.files settings.streamPath ∧
    Run.NoFile (run settings oracle corpus before).2.files settings.reportPath

theorem stopsHard (settings : Settings) (oracle : Oracle σ) (corpus : Corpus) :
    StopsHard settings oracle corpus where
  course before := by
    rcases Run.takes_runAll corpus before with ⟨_, _, ⟨log, subjects, rfl, rfl⟩, course⟩
    exact ⟨log, _, subjects, course, rfl⟩
  cause before error failed := by
    rcases Run.takes_runAll corpus before with ⟨value, acts, -, course⟩
    rw [run] at failed
    rcases ran : (Run.runAll settings oracle corpus).run.run before with ⟨result, last⟩
    rw [ran] at failed course
    cases failed
    exact course.cause
  transcript files state limit := by
    rcases (Run.sends settings oracle).runAll corpus ⟨files, state, {}⟩ with
      ⟨result, sent, after, sends⟩
    have whole : run settings oracle corpus ⟨files, state, {}⟩ =
        (result, Run.cleanUp settings (Bench.place.put (({} : Sink).keepAll sent) after)) := by
      have ran := sends.whole {} (Sink.hasRoom_of_unlimited rfl _)
      change (Run.runAll settings oracle corpus).run.run ⟨files, state, {}⟩ = _ at ran
      rw [run, ran]
    have limited {ending : Except TrialError Summary × Bench σ}
        (ran : (Run.runAll settings oracle corpus).run.run
          (Bench.place.put { limit := some limit } ⟨files, state, {}⟩) = ending) :
        run settings oracle corpus ⟨files, state, { limit := some limit }⟩ =
          (ending.1, Run.cleanUp settings ending.2) := by
      change (Run.runAll settings oracle corpus).run.run
        ⟨files, state, { limit := some limit }⟩ = _ at ran
      rw [run, ran]
    have told : (Run.cleanUp settings (Bench.place.put (({} : Sink).keepAll sent) after)
        ).transcript.contents = ByteRun.join sent := Sink.contents_keepAll
    have sound : ({ limit := some limit } : Sink).Sound := ⟨rfl, fun _ _ => Nat.zero_le _⟩
    simp only [whole, told]
    by_cases room : ({ limit := some limit } : Sink).HasRoom (ByteRun.join sent).length
    · have enough : (ByteRun.join sent).length ≤ limit :=
        le_of_eq_of_le (Nat.zero_add _).symm (room limit rfl)
      rw [limited (sends.whole _ room), if_neg (Nat.not_lt.2 enough), List.take_of_length_le enough]
      exact ⟨Sink.contents_keepAll, rfl⟩
    · rcases sends.cut _ sound room with ⟨last, ended, cut⟩
      rcases cut.contents limit rfl with ⟨short, taken⟩
      have less : limit < (ByteRun.join sent).length := lt_of_lt_of_eq short (Nat.zero_add _)
      rw [limited ended, if_pos less]
      exact ⟨taken, rfl⟩
  cleared before := Run.noFile_cleanUp settings _

end PickleTrial
