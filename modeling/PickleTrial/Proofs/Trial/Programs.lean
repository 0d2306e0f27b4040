import PickleTrial.Proofs.Trial.Judging
import PickleTrial.Proofs.Trial.Reports

/-! What a command answers by. The report of an earlier run is removed before the program is
started, so from then on two runs that began with different reports go on alike. What the command
answers is told by what its own program writes, whatever the exit status, unless the program is
stopped at the time limit; then nothing that it wrote counts. -/

namespace PickleTrial

namespace Files

/-! ## The same files -/

/-- The same stands at every location. -/
structure Same (files others : Files) : Prop where
  current : others.current = files.current
  entries : ∀ location, others.entry? location = files.entry? location

namespace Same

variable {files others : Files} (same : Same files others)

include same

private theorem walk_eq (here : Location) (names : List String) :
    others.walk here names = files.walk here names := by
  induction names generalizing here with
  | nil => rfl
  | cons name rest induction => simp only [walk, same.entries, induction]

private theorem locate_eq (path : String) : others.locate path = files.locate path := by
  rw [locate, locate, same.current]
  exact same.walk_eq _ _

private theorem find_eq (path : String) : others.find path = files.find path := by
  simp only [find, same.locate_eq, same.entries]

private theorem read_eq (path : String) : others.read path = files.read path := by
  rw [read, read, same.find_eq]

private theorem place_eq (path : String) : others.place path = files.place path := by
  simp only [place, same.locate_eq, same.entries]

theorem put (location : Location) (entry : FileEntry) :
    Same (files.put location entry) (others.put location entry) := by
  refine ⟨same.current, fun other => ?_⟩
  by_cases here : other = location
  · subst here
    by_cases root : other = []
    · subst root
      rfl
    · rw [put_here files root, put_here others root]
  · rw [put_elsewhere files here, put_elsewhere others here, same.entries]

end Same

/-! ## Reports that are left -/

private theorem leave_fst (files : Files) (path : String) (left : Option Bytes) :
    (files.leave path left).1 =
      match files.place path with
      | .ok _ => left
      | .error _ => none := by
  cases left with
  | none => rcases files.place path with _ | _ <;> rfl
  | some contents =>
      rw [leave, write_eq]
      rcases files.place path with _ | _ <;> rfl

theorem Same.leave {files others : Files} (same : Same files others) (path : String)
    (left : Option Bytes) : Same (files.leave path left).2 (others.leave path left).2 := by
  cases left with
  | none => exact same
  | some contents =>
      rw [Files.leave, Files.leave, write_eq, write_eq, same.place_eq]
      cases files.place path with
      | error why => exact same
      | ok location => exact same.put location _

/-- Where no report stands, the one that is left is the answer. -/
private theorem readReport_leave {files : Files} {path : String}
    (missing : files.read path = .error .missing) (left : Option Bytes) :
    (files.leave path left).2.readReport path = .ok (.ofReport (files.leave path left).1) := by
  have unwritten : files.readReport path = .ok (.ofReport none) := by
    rw [readReport, missing]
    rfl
  cases left with
  | none => exact unwritten
  | some contents =>
      rw [leave]
      cases written : files.write path contents with
      | error why => exact unwritten
      | ok after =>
          dsimp only
          rw [readReport, read_of_write written]
          rfl

/-! ## Reports that are removed -/

/-- Files that are the same but for what stands at a path. -/
structure SameBut (path : String) (files others : Files) : Prop where
  current : others.current = files.current
  elsewhere : ∀ location, files.locate path ≠ .ok location →
    others.entry? location = files.entry? location

/-- Files from which what stood at a path has been removed, and nothing else. -/
structure Cleared (path : String) (files cleared : Files) : Prop extends
    SameBut path files cleared where
  gone : ∀ location, files.locate path = .ok location → cleared.entry? location = none

theorem SameBut.same {files others : Files} {path : String} {why : FileError}
    (alike : SameBut path files others) (lost : files.locate path = .error why) :
    Same files others :=
  ⟨alike.current, fun location => alike.elsewhere location (by simp [lost])⟩

section Standing

variable {files others : Files} {path : String} {prior : Option Bytes}
  (stands : files.read path = prior.elim (.error .missing) .ok)

include stands

private theorem entry?_ne_directory {location : Location}
    (located : files.locate path = .ok location) : files.entry? location ≠ some .directory := by
  intro directory
  rw [read, find, located] at stands
  simp only [bind, Except.bind, pure, Except.pure, directory] at stands
  cases prior <;> cases stands

/-- What stands at a path is on no way to another. -/
private theorem SameBut.locate (alike : SameBut path files others) {other : String}
    {target : Location}
    (found : files.locate other = .ok target) : others.locate other = .ok target := by
  refine locate_of_directories alike.current (fun location directory => ?_) found
  have elsewhere : files.locate path ≠ .ok location := fun located =>
    entry?_ne_directory stands located directory
  rw [alike.elsewhere location elsewhere, directory]

private theorem SameBut.locate_iff (alike : SameBut path files others) {location : Location} :
    others.locate path = .ok location ↔ files.locate path = .ok location := by
  refine ⟨fun found => ?_, alike.locate stands⟩
  cases located : files.locate path with
  | error why => rw [← located, ← (alike.same located).locate_eq, found]
  | ok other => rw [← found, alike.locate stands located]

private theorem exists_clear :
    ∃ cleared, files.clear path = .ok cleared ∧ Cleared path files cleared := by
  rw [clear, remove]
  rw [read, find] at stands
  cases located : files.locate path with
  | error why =>
      have missing : why = .missing := by
        rw [located] at stands
        cases prior <;> cases stands
        rfl
      subst missing
      exact ⟨files, rfl, ⟨rfl, fun _ _ => rfl⟩, fun _ found => by cases located.symm.trans found⟩
  | ok location =>
      simp only [located, bind, Except.bind, pure, Except.pure] at stands ⊢
      rcases there : files.entry? location with _ | contents | _
      · refine ⟨files, rfl, ⟨rfl, fun _ _ => rfl⟩, fun other found => ?_⟩
        cases located.symm.trans found
        exact there
      · refine ⟨files.without location, rfl, ⟨rfl, fun other apart => ?_⟩, fun other found => ?_⟩
        · refine without_elsewhere files ?_
          rintro rfl
          exact apart located
        · cases located.symm.trans found
          exact without_here files (ne_nil_of_file there)
      · rw [there] at stands
        cases prior <;> cases stands

private theorem Cleared.read_missing (cleared : Cleared path files others) :
    others.read path = .error .missing := by
  cases located : files.locate path with
  | error why =>
      rw [(cleared.same located).read_eq, stands]
      rw [read, find, located] at stands
      cases prior with
      | none => rfl
      | some contents => cases stands
  | ok location =>
      rw [read, find, cleared.locate stands located]
      simp only [bind, Except.bind, pure, Except.pure, cleared.gone location located]
      rfl

/-- Files that differ in what stands at a path are the same without it. -/
private theorem SameBut.same_cleared {cleared otherCleared : Files}
    (alike : SameBut path files others)
    (left : Cleared path files cleared) (right : Cleared path others otherCleared) :
    Same cleared otherCleared := by
  refine ⟨by rw [right.current, alike.current, left.current], fun location => ?_⟩
  by_cases here : files.locate path = .ok location
  · rw [left.gone location here, right.gone location ((alike.locate_iff stands).2 here)]
  · have elsewhere : others.locate path ≠ .ok location := mt (alike.locate_iff stands).1 here
    rw [right.elsewhere location elsewhere, alike.elsewhere location here,
      left.elsewhere location here]

/-- What stands at another location is read as before. -/
private theorem SameBut.read_elsewhere (alike : SameBut path files others) {other : String}
    {location : Location} (located : files.locate other = .ok location)
    (apart : files.locate path ≠ .ok location) : others.read other = files.read other := by
  rw [read, read, find, find, located, alike.locate stands located]
  simp only [bind, Except.bind, pure, Except.pure, alike.elsewhere location apart]

end Standing

end Files

/-! ## Answers -/

private theorem Answer.isTold_ofReport (contents : Option Bytes) :
    (Answer.ofReport contents).IsTold contents := by
  cases contents with
  | none => exact .nothing
  | some bytes => exact Answer.ofBytes_eq_iff.1 rfl

/-- No report tells of a time limit. -/
private theorem Answer.ofReport_ne_timedOut (contents : Option Bytes) (limit : Nat) :
    Answer.ofReport contents ≠ .failed (.timedOut limit) := by
  intro same
  have told := Answer.isTold_ofReport contents
  rw [same] at told
  cases told

namespace ProgramCommand

/-- What a program that was started writes to the report file, if there is a place for one. -/
def output (command : ProgramCommand) (program : Program) (streamPath reportPath : String)
    (files : Files) : Option Bytes :=
  match files.place reportPath with
  | .ok _ => program.writes (command.arguments ++ [streamPath, reportPath]) (files.read streamPath)
  | .error _ => none

/-- The answer that follows from what a program wrote. -/
def conclude (command : ProgramCommand) (program : Program) (written : Option Bytes) : Answer :=
  match program.outlives, command.timeLimit with
  | true, some limit => .failed (.timedOut limit)
  | _, _ => .ofReport written

/-- What the command does when the report of an earlier run is removed. -/
def resume (command : ProgramCommand) (launch : Launcher) (streamPath reportPath : String)
    (files : Files) : Except TrialError Answer × Files :=
  match launch command.program with
  | .error reason => (.error (.launch command.program reason), files)
  | .ok program =>
      (.ok (command.conclude program (command.output program streamPath reportPath files)),
        command.filesAfter program streamPath reportPath files)

variable {command : ProgramCommand} {launch : Launcher} {program : Program}
  {streamPath reportPath : String} {files cleared : Files}

private theorem conclude_eq_timedOut_iff (written : Option Bytes) (limit : Nat) :
    command.conclude program written = .failed (.timedOut limit) ↔
      command.timeLimit = some limit ∧ program.outlives = true := by
  have other := Answer.ofReport_ne_timedOut written limit
  rw [conclude]
  cases program.outlives <;> cases command.timeLimit <;> simp [other]

private theorem isTold_conclude (runs : program.outlives = false ∨ command.timeLimit = none)
    (written : Option Bytes) : (command.conclude program written).IsTold written := by
  have told := Answer.isTold_ofReport written
  rw [conclude]
  rcases runs with ends | unlimited
  · rw [ends]
    exact told
  · rw [unlimited]
    cases program.outlives <;> exact told

private theorem filesAfter_eq (command : ProgramCommand) (program : Program)
    (streamPath reportPath : String) (files : Files) :
    command.filesAfter program streamPath reportPath files =
      (files.leave reportPath (program.writes (command.arguments ++ [streamPath, reportPath])
        (files.read streamPath))).2 := by
  rw [filesAfter]
  cases program.writes (command.arguments ++ [streamPath, reportPath]) (files.read streamPath) with
  | none => rfl
  | some contents =>
      simp only [Files.leave]
      cases files.write reportPath contents with
      | error reason => rfl
      | ok after => rfl

private theorem run_eq_resume (clear : files.clear reportPath = .ok cleared)
    (missing : cleared.read reportPath = .error .missing) :
    command.run launch streamPath reportPath files =
      command.resume launch streamPath reportPath cleared := by
  rw [run, clear, resume]
  dsimp only
  cases launch command.program with
  | error reason => rfl
  | ok program =>
      dsimp only
      rw [output, ← Files.leave_fst, filesAfter_eq, Files.readReport_leave missing, conclude]
      cases program.outlives <;> cases command.timeLimit <;> rfl

private theorem resume_same {others : Files} (same : Files.Same files others) :
    (command.resume launch streamPath reportPath others).1 =
        (command.resume launch streamPath reportPath files).1 ∧
      Files.Same (command.resume launch streamPath reportPath files).2
        (command.resume launch streamPath reportPath others).2 := by
  rw [resume, resume]
  cases launch command.program with
  | error reason => exact ⟨rfl, same⟩
  | ok program =>
      have told : command.output program streamPath reportPath others =
          command.output program streamPath reportPath files := by
        rw [output, output, same.place_eq, same.read_eq]
      dsimp only
      refine ⟨by rw [told], ?_⟩
      rw [filesAfter_eq, filesAfter_eq, same.read_eq]
      exact same.leave reportPath _

end ProgramCommand

/-- How a command answers, told by the files without the report of an earlier run. -/
structure AnswersFrom (command : ProgramCommand) (launch : Launcher)
    (streamPath reportPath : String) (files cleared : Files) : Prop where
  notStarted : ∀ reason, launch command.program = .error reason →
    (command.oracle launch).answer streamPath reportPath ⟨files, ()⟩ =
      (.error (.launch command.program reason), ⟨cleared, ()⟩)
  /-- A program is stopped whatever it has written by then, and else what it has written is all
  that tells the answer. -/
  started : ∀ program, launch command.program = .ok program → ∃ answer,
    (command.oracle launch).answer streamPath reportPath ⟨files, ()⟩ =
        (.ok answer, ⟨command.filesAfter program streamPath reportPath cleared, ()⟩) ∧
      (∀ limit, answer = .failed (.timedOut limit) ↔
        command.timeLimit = some limit ∧ program.outlives = true) ∧
      (program.outlives = false ∨ command.timeLimit = none →
        answer.IsTold (command.output program streamPath reportPath cleared))

/-- A command answers by what its own program writes. Whatever report there was before is removed
before the program is started, also where it cannot be started, and nothing else is changed; so the
answer is the same whatever report there was. -/
theorem answers_by_own_report (command : ProgramCommand) (launch : Launcher)
    (streamPath reportPath : String) (files : Files) (prior : Option Bytes)
    (stands : files.read reportPath = prior.elim (.error .missing) .ok) :
    (∃ cleared, Files.Cleared reportPath files cleared ∧
      AnswersFrom command launch streamPath reportPath files cleared ∧
      ∀ location, files.locate streamPath = .ok location →
        files.locate reportPath ≠ .ok location → cleared.read streamPath = files.read streamPath) ∧
    ∀ (others : Files) (otherPrior : Option Bytes), Files.SameBut reportPath files others →
      others.read reportPath = otherPrior.elim (.error .missing) .ok →
        ((command.oracle launch).answer streamPath reportPath ⟨others, ()⟩).1 =
            ((command.oracle launch).answer streamPath reportPath ⟨files, ()⟩).1 ∧
          Files.Same ((command.oracle launch).answer streamPath reportPath ⟨files, ()⟩).2.files
            ((command.oracle launch).answer streamPath reportPath ⟨others, ()⟩).2.files := by
  have answer (files : Files) : (command.oracle launch).answer streamPath reportPath ⟨files, ()⟩ =
      ((command.run launch streamPath reportPath files).1,
        ⟨(command.run launch streamPath reportPath files).2, ()⟩) := rfl
  rcases Files.exists_clear stands with ⟨cleared, clear, left⟩
  have resumed : command.run launch streamPath reportPath files =
      command.resume launch streamPath reportPath cleared :=
    ProgramCommand.run_eq_resume clear (left.read_missing stands)
  constructor
  · refine ⟨cleared, left, ⟨?_, ?_⟩, fun location located apart => ?_⟩
    · intro reason refused
      rw [answer, resumed, ProgramCommand.resume, refused]
    · intro program launched
      rw [answer, resumed, ProgramCommand.resume, launched]
      exact ⟨_, rfl, ProgramCommand.conclude_eq_timedOut_iff _, fun runs =>
        ProgramCommand.isTold_conclude runs _⟩
    · exact left.read_elsewhere stands located apart
  · intro others otherPrior alike otherStands
    rcases Files.exists_clear otherStands with ⟨otherCleared, otherClear, right⟩
    have same := alike.same_cleared stands left right
    rw [answer, answer, resumed,
      ProgramCommand.run_eq_resume otherClear (right.read_missing otherStands)]
    exact ProgramCommand.resume_same same

/-- A program that writes its report, and then hangs until it is stopped, beside an earlier report
and beside none. -/
theorem answers_by_own_report_hanging :
    let command : ProgramCommand := { program := "oracle", timeLimit := some 850 }
    let program : Program := { writes := fun _ _ => some (Utf8.encode "a\nb\n"), outlives := true }
    let stale : Files :=
      ⟨[], [(["stream"], .file [0x4e, 0x2e]), (["report"], .file (Utf8.encode "c\nd\n"))]⟩
    let fresh : Files := ⟨[], [(["stream"], .file [0x4e, 0x2e])]⟩
    stale.read "report" = .ok (Utf8.encode "c\nd\n") ∧
      Files.SameBut "report" stale fresh ∧ fresh.read "report" = .error .missing ∧
      ((command.oracle fun _ => .ok program).answer "stream" "report" ⟨stale, ()⟩).1 =
        .ok (.failed (.timedOut 850)) ∧
      ((command.oracle fun _ => .ok program).answer "stream" "report" ⟨fresh, ()⟩).1 =
        .ok (.failed (.timedOut 850)) := by
  intro command program stale fresh
  have stands : stale.read "report" = .ok (Utf8.encode "c\nd\n") := by decide +kernel
  have missing : fresh.read "report" = .error .missing := by decide +kernel
  have located : stale.locate "report" = .ok ["report"] := by decide +kernel
  have alike : Files.SameBut "report" stale fresh := by
    refine ⟨rfl, fun location apart => ?_⟩
    have other : (location == ["report"]) = false := by
      refine beq_eq_false_iff_ne.2 ?_
      rintro rfl
      exact apart located
    simp [stale, fresh, Files.entry?, List.lookup_cons, other]
  rcases answers_by_own_report command (fun _ => .ok program) "stream" "report" stale
    (some (Utf8.encode "c\nd\n")) stands with ⟨⟨cleared, -, answers, -⟩, same⟩
  rcases answers.started program rfl with ⟨answer, given, timedOut, -⟩
  have stopped : answer = .failed (.timedOut 850) := (timedOut 850).2 ⟨rfl, rfl⟩
  have first : ((command.oracle fun _ => .ok program).answer "stream" "report" ⟨stale, ()⟩).1 =
      .ok (.failed (.timedOut 850)) := by rw [given, stopped]
  exact ⟨stands, alike, missing, first, (same fresh none alike missing).1.trans first⟩

end PickleTrial
