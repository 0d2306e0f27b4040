import PickleTrial.Proofs.Trial.Stopping

/-! Reports by which runs go. A run does not remove the report on a case before it asks for the next
one. So if the oracle does not do so either, a case on which nothing is reported is judged by what
was reported on an earlier one. -/

namespace PickleTrial

variable {σ α : Type}

/-! ## Reports that stand -/

/-- The report in a file, if there is one. -/
def Files.report (files : Files) (path : String) : Option Bytes :=
  (files.read path).toOption

/-- What a report, or none, is the answer to. -/
def Answer.ofReport : Option Bytes → Answer
  | some contents => .ofBytes contents
  | none => .failed .noReport

/-- Leave a report, if there is one, and tell what was written. -/
def Files.leave (files : Files) (path : String) : Option Bytes → Option Bytes × Files
  | some contents =>
      match files.write path contents with
      | .ok after => (some contents, after)
      | .error _ => (none, files)
  | none => (none, files)

namespace Files

variable {files after : Files} {path : String}

private theorem find_of_report {contents : Bytes} (stands : files.report path = some contents) :
    files.find path = .ok (some (.file contents)) := by
  rw [Files.report] at stands
  cases found : files.read path with
  | error reason =>
      rw [found] at stands
      cases stands
  | ok other =>
      rw [found] at stands
      cases stands
      exact read_eq_ok_iff.1 found

private theorem report_of_clear (cleared : files.clear path = .ok after) :
    after.report path = none := by
  have discarded : after = Run.discard files path := by
    rw [clear] at cleared
    rw [Run.discard]
    cases removed : files.remove path with
    | ok others =>
        rw [removed] at cleared
        cases cleared
        rfl
    | error reason =>
        rw [removed] at cleared
        cases reason <;> cases cleared
        rfl
  rw [discarded]
  refine Option.eq_none_iff_forall_ne_some.2 fun contents stands => ?_
  exact Run.noFile_discard files path contents (find_of_report stands)

private theorem report_leave (files : Files) (path : String) (left : Option Bytes) :
    (files.leave path left).2.report path = (files.leave path left).1.or (files.report path) := by
  cases left with
  | none => rfl
  | some contents =>
      rw [leave]
      cases written : files.write path contents with
      | error reason => rfl
      | ok after => exact congrArg Except.toOption (read_of_write written)

/-- What is in the report file is the answer. -/
private theorem eq_of_readReport {answer : Answer} (answered : files.readReport path = .ok answer) :
    answer = .ofReport (files.report path) := by
  rw [readReport] at answered
  rw [Files.report]
  cases found : files.read path with
  | ok contents =>
      rw [found] at answered
      cases answered
      rfl
  | error reason =>
      rw [found] at answered
      cases reason <;> cases answered
      rfl

/-- Handing a stream over leaves the report as it is. -/
private theorem report_of_writeStream {settings : Settings} {case : TrialCase} {version : Nat}
    {stream : Bytes}
    (handed : files.writeStream case version settings.streamPath = .ok (stream, after)) :
    after.report settings.reportPath = files.report settings.reportPath := by
  have streamName : Plain "pickledata.txt" := ⟨by decide, by decide, by decide⟩
  have reportName : Plain "resultdata.txt" := ⟨by decide, by decide, by decide⟩
  exact congrArg Except.toOption
    (read_beside streamName reportName (by decide) (writeStream_eq_ok handed).2)

end Files

/-! ## Oracles that report -/

/-- An oracle that leaves a report or leaves none, and answers with what is in the report file
then. -/
structure Reporter (σ : Type) where
  /-- Whether what is in the report file is removed before. -/
  clears : Bool
  report : (streamPath reportPath : String) → Surroundings σ → Option Bytes × σ

namespace Reporter

variable (reporter : Reporter σ)

/-- The files when the oracle begins. -/
def prepare (reportPath : String) (files : Files) : Except TrialError Files :=
  if reporter.clears then files.clear reportPath else .ok files

/-- What is written when the oracle is asked, beside the answer. -/
def invoke (streamPath reportPath : String) (around : Surroundings σ) :
    Option Bytes × Except TrialError Answer × Surroundings σ :=
  match reporter.prepare reportPath around.files with
  | .error error => (none, .error error, around)
  | .ok files =>
      let (report, state) := reporter.report streamPath reportPath ⟨files, around.state⟩
      let (written, files) := files.leave reportPath report
      (written, files.readReport reportPath, ⟨files, state⟩)

def oracle : Oracle σ where
  answer streamPath reportPath around := (reporter.invoke streamPath reportPath around).2

/-- The oracle with a record of what was written for each answer. -/
def recorded : Oracle (σ × List (Option Bytes)) where
  answer streamPath reportPath around :=
    match reporter.invoke streamPath reportPath ⟨around.files, around.state.1⟩ with
    | (written, .ok answer, after) =>
        (.ok answer, ⟨after.files, after.state, around.state.2 ++ [written]⟩)
    | (_, .error error, after) => (.error error, ⟨after.files, after.state, around.state.2⟩)

/-- The report that stands when what is written comes after what stood. -/
def stands (earlier written : Option Bytes) : Option Bytes :=
  written.or (if reporter.clears then none else earlier)

/-- The report that stands at last. -/
def standing (initial : Option Bytes) (reports : List (Option Bytes)) : Option Bytes :=
  reports.foldl reporter.stands initial

/-- The answers, each one by what stands then. -/
def answers : (initial : Option Bytes) → (reports : List (Option Bytes)) → List Answer
  | _, [] => []
  | initial, written :: rest =>
      .ofReport (reporter.stands initial written) :: answers (reporter.stands initial written) rest

end Reporter

/-! ## What one answer goes by -/

namespace Reporter

variable {reporter : Reporter σ}

private theorem report_of_prepare {files others : Files} {reportPath : String}
    (prepared : reporter.prepare reportPath files = .ok others) :
    others.report reportPath = if reporter.clears then none else files.report reportPath := by
  rw [prepare] at prepared
  by_cases clears : reporter.clears = true
  · rw [if_pos clears] at prepared ⊢
    exact Files.report_of_clear prepared
  · rw [if_neg clears] at prepared ⊢
    cases prepared
    rfl

private theorem eq_of_invoke {streamPath reportPath : String} {around after : Surroundings σ}
    {written : Option Bytes} {answer : Answer}
    (answered : reporter.invoke streamPath reportPath around = (written, .ok answer, after)) :
    after.files.report reportPath =
        reporter.stands (around.files.report reportPath) written ∧
      answer = .ofReport (after.files.report reportPath) := by
  rw [invoke] at answered
  cases prepared : reporter.prepare reportPath around.files with
  | error reason =>
      rw [prepared] at answered
      cases answered
  | ok files =>
      rw [prepared] at answered
      dsimp only at answered
      generalize (reporter.report streamPath reportPath ⟨files, around.state⟩).1 = left at answered
      rw [Prod.mk.injEq, Prod.mk.injEq] at answered
      rcases answered with ⟨rfl, read, rfl⟩
      refine ⟨?_, Files.eq_of_readReport read⟩
      rw [Files.report_leave, report_of_prepare prepared]
      rfl

private theorem extends_recorded : Run.Extends Prod.fst reporter.recorded reporter.oracle := by
  intro streamPath reportPath around
  simp only [recorded, oracle]
  rcases reporter.invoke streamPath reportPath ⟨around.files, around.state.1⟩ with
    ⟨written, _ | answer, after⟩
  · rfl
  · rfl

private theorem ask_recorded {settings : Settings} {answer : Answer}
    {before after : Bench (σ × List (Option Bytes))}
    (asked : (Run.ask settings reporter.recorded).run.run before = (.ok answer, after)) :
    ∃ written, after.state.2 = before.state.2 ++ [written] ∧
      after.files.report settings.reportPath =
        reporter.stands (before.files.report settings.reportPath) written ∧
      answer = .ofReport (after.files.report settings.reportPath) := by
  rw [Run.run_ask] at asked
  simp only [recorded] at asked
  rcases invoked : reporter.invoke settings.streamPath settings.reportPath
    ⟨before.files, before.state.1⟩ with ⟨written, _ | given, around⟩
  · rw [invoked] at asked
    cases asked
  · rw [invoked] at asked
    rcases Prod.mk.inj asked with ⟨same, rfl⟩
    cases same
    have read := eq_of_invoke invoked
    dsimp only
    exact ⟨written, rfl, read⟩

/-- What is written while an act is done, and the answer in it. -/
private theorem answers_of_does {settings : Settings} {act : Act}
    {before after : Bench (σ × List (Option Bytes))}
    (does : act.Does settings reporter.recorded before after) :
    ∃ reports, after.state.2 = before.state.2 ++ reports ∧
      after.files.report settings.reportPath =
        reporter.standing (before.files.report settings.reportPath) reports ∧
      act.answer?.toList = reporter.answers (before.files.report settings.reportPath) reports := by
  cases act with
  | say line =>
      rw [Act.Does, Run.run_say] at does
      cases congrArg Prod.snd does
      exact ⟨[], (List.append_nil _).symm, rfl, rfl⟩
  | handOver version case stream =>
      rw [Act.Does, Run.run_handOver] at does
      cases handed : before.files.writeStream case version settings.streamPath with
      | error reason =>
          rw [handed] at does
          cases does
      | ok given =>
          rw [handed] at does
          cases does
          exact ⟨[], (List.append_nil _).symm, Files.report_of_writeStream handed, rfl⟩
  | ask answer =>
      rcases ask_recorded does with ⟨written, kept, stands, rfl⟩
      refine ⟨[written], kept, stands, ?_⟩
      rw [stands]
      rfl

private theorem state_of_fails {settings : Settings} {act : Act} {error : TrialError}
    {before after : Bench (σ × List (Option Bytes))}
    (fails : act.Fails settings reporter.recorded before error after) :
    after.state.2 = before.state.2 := by
  cases act with
  | say line =>
      rw [Act.Fails, Run.run_say] at fails
      cases congrArg Prod.snd fails
      rfl
  | handOver version case stream =>
      rw [Act.Fails, Run.run_handOver] at fails
      cases handed : before.files.writeStream case version settings.streamPath with
      | error reason =>
          rw [handed] at fails
          cases fails
          rfl
      | ok given =>
          rw [handed] at fails
          cases fails
  | ask answer =>
      rw [Act.Fails, Run.run_ask] at fails
      simp only [recorded] at fails
      rcases invoked : reporter.invoke settings.streamPath settings.reportPath
        ⟨before.files, before.state.1⟩ with ⟨written, _ | given, around⟩
      · rw [invoked] at fails
        cases fails
        rfl
      · rw [invoked] at fails
        cases fails

/-! ## What a run goes by -/

private theorem answers_append (initial : Option Bytes) (first second : List (Option Bytes)) :
    reporter.answers initial (first ++ second) =
      reporter.answers initial first ++
        reporter.answers (reporter.standing initial first) second := by
  induction first generalizing initial with
  | nil => rfl
  | cons written rest induction => exact congrArg (List.cons _) (induction _)

private theorem length_answers (initial : Option Bytes) (reports : List (Option Bytes)) :
    (reporter.answers initial reports).length = reports.length := by
  induction reports generalizing initial with
  | nil => rfl
  | cons written rest induction => exact congrArg (· + 1) (induction _)

private theorem getElem?_answers (reporter : Reporter σ) (initial : Option Bytes)
    {reports : List (Option Bytes)} {index : Nat} {written : Option Bytes}
    (there : reports[index]? = some written) :
    (reporter.answers initial reports)[index]? =
      some (.ofReport (reporter.stands (reporter.standing initial (reports.take index)) written)) :=
    by
  induction reports generalizing initial index with
  | nil => cases there
  | cons first rest induction =>
      cases index with
      | zero =>
          cases there
          rfl
      | succ index => exact induction _ there

/-- Answers are by the reports that stand, as far as a run comes. -/
private theorem answers_of_course {settings : Settings} {value : α} {acts : List Act}
    {before : Bench (σ × List (Option Bytes))}
    {ending : Except TrialError α × Bench (σ × List (Option Bytes))}
    (course : Run.Course settings reporter.recorded value acts before ending) :
    ∃ reports, ending.2.state.2 = before.state.2 ++ reports ∧
      reporter.answers (before.files.report settings.reportPath) reports <+:
        acts.filterMap Act.answer? ∧
      ∀ yielded, ending.1 = .ok yielded →
        (acts.filterMap Act.answer?).length = reports.length := by
  -- What stands behind the first act is what the answers in the others start from.
  induction course with
  | done => exact ⟨[], (List.append_nil _).symm, List.nil_prefix, fun _ _ => rfl⟩
  | @goesOn act rest before middle ending does _ induction =>
      rcases answers_of_does does with ⟨first, keptFirst, standing, answered⟩
      rcases induction with ⟨others, keptOthers, answers, complete⟩
      have split : (act :: rest).filterMap Act.answer? =
          reporter.answers (before.files.report settings.reportPath) first ++
            rest.filterMap Act.answer? := by
        rw [← answered]
        cases answer : act.answer? with
        | none => exact List.filterMap_cons_none answer
        | some given => exact List.filterMap_cons_some answer
      refine ⟨first ++ others, ?_, ?_, fun yielded ends => ?_⟩
      · rw [keptOthers, keptFirst, List.append_assoc]
      · rw [split, answers_append, ← standing]
        exact (List.prefix_append_right_inj _).2 answers
      · rw [split, List.length_append, length_answers, complete yielded ends, List.length_append]
  | stops fails =>
      refine ⟨[], ?_, List.nil_prefix, fun _ ends => nomatch ends⟩
      rw [List.append_nil]
      exact state_of_fails fails

end Reporter

/-- A case on which there is a report is not judged as one without. -/
private theorem TrialCase.judge_ofBytes_ne (case : TrialCase) (contents : Bytes) :
    case.judge (.ofBytes contents) ≠ case.judge (.failed .noReport) := by
  intro same
  rw [Answer.ofBytes] at same
  cases decoded : Utf8.decode? contents with
  | none =>
      rw [decoded] at same
      cases same
  | some text =>
      rw [decoded] at same
      cases parsed : Report.ofText text with
      | error lines =>
          simp only [parsed] at same
          cases same
      | ok report =>
          simp only [parsed, judge, compare] at same
          split at same
          · cases same
          · cases same

private theorem Reporter.judge_stands_iff (reporter : Reporter σ) (case : TrialCase)
    (earlier written : Option Bytes) :
    case.judge (.ofReport (reporter.stands earlier written)) = case.judge (.ofReport written) ↔
      reporter.clears = true ∨ written ≠ none ∨ earlier = none := by
  cases written with
  | some contents => exact iff_of_true rfl (.inr (.inl (Option.some_ne_none contents)))
  | none =>
      by_cases clears : reporter.clears = true
      · have nothing : reporter.stands earlier none = none := if_pos clears
        rw [nothing]
        exact iff_of_true rfl (.inl clears)
      have stays : reporter.stands earlier none = earlier := if_neg clears
      rw [stays]
      cases earlier with
      | none => exact iff_of_true rfl (.inr (.inr rfl))
      | some contents =>
          refine iff_of_false (case.judge_ofBytes_ne contents) ?_
          simp [clears]

/-- The bench, with nothing reported yet. -/
def Bench.unreported (bench : Bench σ) : Bench (σ × List (Option Bytes)) :=
  { bench with state := (bench.state, []) }

/-- What is written in a run for the cases that are answered, in order. -/
def Reporter.written (reporter : Reporter σ) (settings : Settings) (corpus : Corpus)
    (before : Bench σ) : List (Option Bytes) :=
  (run settings reporter.recorded corpus before.unreported).2.state.2

/-- What the verdicts of a run go by, with its log and the reports written for its cases. -/
structure GoesBy (settings : Settings) (reporter : Reporter σ) (corpus : Corpus)
    (before : Bench σ) (log : RunLog) (reports : List (Option Bytes)) : Prop where
  subjects : log.attempts.map Attempt.subject = corpus.subjects settings.protocols
  recorded : reports = reporter.written settings corpus before
  /-- The run does the acts in the log up to the first that fails, and what is written in the acts
  of asking before that one are the reports. -/
  course : ∃ last, Run.Course settings reporter.recorded log.summary (log.acts settings.dump)
    before.unreported ((run settings reporter.oracle corpus before).1, last) ∧
      last.state.2 = reports
  answered : reports.length ≤ log.attempts.length
  complete : ∀ summary, (run settings reporter.oracle corpus before).1 = .ok summary →
    reports.length = log.attempts.length
  /-- A case is judged by the report that stands when the oracle has been asked. -/
  verdict : ∀ (index : Nat) (written : Option Bytes) (attempt : Attempt),
    reports[index]? = some written → log.attempts[index]? = some attempt →
      attempt.verdict = attempt.case.judge (.ofReport (reporter.stands
        (reporter.standing (before.files.report settings.reportPath) (reports.take index)) written))
  /-- So it is judged by what was written for itself if and only if earlier reports are removed, or
  something was written for it, or no earlier report stands. -/
  own : ∀ (index : Nat) (written : Option Bytes) (attempt : Attempt),
    reports[index]? = some written → log.attempts[index]? = some attempt →
      (attempt.verdict = attempt.case.judge (.ofReport written) ↔
        reporter.clears = true ∨ written ≠ none ∨
          reporter.standing (before.files.report settings.reportPath) (reports.take index) = none)

theorem exists_goesBy (settings : Settings) (reporter : Reporter σ) (corpus : Corpus)
    (before : Bench σ) : ∃ log reports, GoesBy settings reporter corpus before log reports := by
  have result : (run settings reporter.oracle corpus before).1 =
      (run settings reporter.recorded corpus before.unreported).1 :=
    congrArg Prod.fst (Reporter.extends_recorded.run_eq settings corpus before.unreported)
  have takes : Run.Takes settings reporter.recorded _ _ := Run.takes_runAll corpus
  rcases takes before.unreported with ⟨_, _, ⟨log, subjects, rfl, rfl⟩, course⟩
  rcases Reporter.answers_of_course course with ⟨reports, kept, answers, complete⟩
  rw [RunLog.answers_acts] at answers complete
  have verdict (index : Nat) (written : Option Bytes) (attempt : Attempt)
      (there : reports[index]? = some written) (tried : log.attempts[index]? = some attempt) :
      attempt.verdict = attempt.case.judge (.ofReport (reporter.stands
        (reporter.standing (before.files.report settings.reportPath) (reports.take index))
          written)) := by
    have answered := reporter.getElem?_answers (before.files.report settings.reportPath) there
    rcases answers with ⟨unanswered, joined⟩
    change reporter.answers (before.files.report settings.reportPath) reports ++ _ = _ at joined
    rw [← List.getElem?_append_left (List.getElem?_eq_some_iff.1 answered).1, joined,
      List.getElem?_map, tried] at answered
    exact congrArg attempt.case.judge (Option.some.inj answered)
  refine ⟨log, reports, {
    subjects
    recorded := kept.symm
    course := ⟨_, ?_, kept⟩
    answered := ?_
    complete := fun summary ends => ?_
    verdict
    own := fun index written attempt there tried => ?_ }⟩
  · rw [result]
    exact course
  · have length := answers.length_le
    rwa [Reporter.length_answers, List.length_map] at length
  · rw [result] at ends
    have length := complete summary ends
    rw [List.length_map] at length
    exact length.symm
  · rw [verdict index written attempt there tried]
    exact reporter.judge_stands_iff _ _ _

/-- An oracle that leaves the reports it was given, one each time, and does not look at the file
before. -/
def Reporter.scripted : Reporter (List Bytes) where
  clears := false
  report _ _ around := (around.state.head?, around.state.tail)

/-- A case may pass by an earlier report: here a value is tried twice and reported on the first time
only. -/
theorem exists_pass_goesBy_earlier :
    let five : TrialCase := ⟨⟨#[.int 5]⟩, 0, "java.lang.Integer", "5"⟩
    let report := Utf8.encode "java.lang.Integer\n5\n"
    ∃ log reports attempt, GoesBy { protocols := { lowest := 0, highest := 0 } } .scripted
        ⟨[⟨"java.lang.Integer", [five, five]⟩]⟩ ⟨{}, [report], {}⟩ log reports ∧
      log.attempts[1]? = some attempt ∧ reports[1]? = some none ∧ attempt.verdict = .pass := by
  intro five report
  rcases exists_goesBy { protocols := { lowest := 0, highest := 0 } } .scripted
    ⟨[⟨"java.lang.Integer", [five, five]⟩]⟩ ⟨{}, [report], {}⟩ with ⟨log, reports, goesBy⟩
  have written : reports = [some report, none] := by
    rw [goesBy.recorded]
    decide +kernel
  have nothing : reports[1]? = some none := by
    rw [written]
    rfl
  have second : (log.attempts.map Attempt.subject)[1]? = some (0, "java.lang.Integer", five) := by
    rw [goesBy.subjects]
    rfl
  rw [List.getElem?_map] at second
  rcases Option.map_eq_some_iff.1 second with ⟨attempt, tried, subject⟩
  have case : attempt.case = five := congrArg (fun subject => subject.2.2) subject
  refine ⟨log, reports, attempt, goesBy, tried, nothing, ?_⟩
  rw [goesBy.verdict 1 none attempt nothing tried, written, case]
  decide +kernel

end PickleTrial
