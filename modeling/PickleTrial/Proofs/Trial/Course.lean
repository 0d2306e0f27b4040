import PickleTrial.Proofs.Trial.Recording

/-! The course of a run. A run does one act after the other, as its log has them, until one fails;
then it stops with the error of that act. What an oracle answers is no error, whatever it is. -/

namespace PickleTrial

/-- What is done in a run, with what comes of it. -/
inductive Act
  | say (line : String)
  | handOver (version : Nat) (case : TrialCase) (stream : Bytes)
  | ask (answer : Answer)

def Attempt.acts (dump : Bool) (attempt : Attempt) : List Act :=
  .say ("testing " ++ attempt.case.render) ::
    .handOver attempt.version attempt.case attempt.stream :: .ask attempt.answer ::
      (attempt.complaint dump).map .say

def GroupLog.acts (dump : Bool) (log : GroupLog) : List Act :=
  .say ("CHECK CLASS: " ++ log.label) :: log.attempts.flatMap (Attempt.acts dump)

def ProtocolLog.acts (dump : Bool) (log : ProtocolLog) : List Act :=
  .say "" :: .say ("PICKLE PROTOCOL: " ++ Numeral.natural log.version) ::
    (log.groups.flatMap (GroupLog.acts dump) ++
      [.say ("number of errors for protocol " ++ Numeral.natural log.version ++ ": " ++
        Numeral.natural log.tally.errors)])

def RunLog.acts (dump : Bool) (log : RunLog) : List Act :=
  log.protocols.flatMap (ProtocolLog.acts dump) ++
    [.say "", .say ("Total number of errors: " ++ Numeral.natural log.summary.totalErrors)]

/-! ## Answers -/

/-- The answer in an act, if it is one of asking. -/
def Act.answer? : Act → Option Answer
  | ask answer => some answer
  | say _ => none
  | handOver _ _ _ => none

private theorem Attempt.answers_acts (dump : Bool) (attempt : Attempt) :
    (attempt.acts dump).filterMap Act.answer? = [attempt.answer] := by
  have silent : ((attempt.complaint dump).map Act.say).filterMap Act.answer? = [] := by
    rw [List.filterMap_map]
    exact List.filterMap_eq_nil_iff.2 fun _ _ => rfl
  exact congrArg (List.cons attempt.answer) silent

private theorem GroupLog.answers_acts (dump : Bool) (log : GroupLog) :
    (log.acts dump).filterMap Act.answer? = log.attempts.map Attempt.answer := by
  rw [GroupLog.acts, List.filterMap_cons_none rfl, List.filterMap_flatMap]
  simp only [Attempt.answers_acts, List.map_eq_flatMap]

private theorem ProtocolLog.answers_acts (dump : Bool) (log : ProtocolLog) :
    (log.acts dump).filterMap Act.answer? = log.attempts.map Attempt.answer := by
  rw [ProtocolLog.acts, List.filterMap_cons_none rfl, List.filterMap_cons_none rfl,
    List.filterMap_append, List.filterMap_flatMap, ProtocolLog.attempts, List.map_flatMap]
  simp only [GroupLog.answers_acts]
  exact List.append_nil _

/-- The answers in the acts of a run are those of its attempts. -/
theorem RunLog.answers_acts (dump : Bool) (log : RunLog) :
    (log.acts dump).filterMap Act.answer? = log.attempts.map Attempt.answer := by
  rw [RunLog.acts, List.filterMap_append, List.filterMap_flatMap, RunLog.attempts, List.map_flatMap]
  simp only [ProtocolLog.answers_acts]
  exact List.append_nil _

/-! ## Courses of acts -/

variable {σ α β : Type} (settings : Settings) (oracle : Oracle σ)

namespace Act

/-- The act comes out as it says. -/
def Does : Act → Bench σ → Bench σ → Prop
  | say line, before, after => (Run.say line).run.run before = (.ok (), after)
  | handOver version case stream, before, after =>
      (Run.handOver settings version case).run.run before = (.ok stream, after)
  | ask answer, before, after => (Run.ask settings oracle).run.run before = (.ok answer, after)

def Fails : Act → Bench σ → TrialError → Bench σ → Prop
  | say line, before, error, after => (Run.say line).run.run before = (.error error, after)
  | handOver version case _, before, error, after =>
      (Run.handOver settings version case).run.run before = (.error error, after)
  | ask _, before, error, after =>
      (Run.ask settings oracle).run.run before = (.error error, after)

end Act

namespace Run

/-- How acts are done: one after the other, and a value is yielded behind the last; but an act that
fails is the last one. -/
inductive Course (value : α) : List Act → Bench σ → Except TrialError α × Bench σ → Prop
  | done {bench : Bench σ} : Course value [] bench (.ok value, bench)
  | goesOn {act : Act} {rest : List Act} {before middle : Bench σ}
      {ending : Except TrialError α × Bench σ} : act.Does settings oracle before middle →
      Course value rest middle ending → Course value (act :: rest) before ending
  | stops {act : Act} {rest : List Act} {before after : Bench σ} {error : TrialError} :
      act.Fails settings oracle before error after →
      Course value (act :: rest) before (.error error, after)

variable {settings} {oracle} {value : α} {result : β} {acts more : List Act}
  {before middle after : Bench σ}

namespace Course

theorem eq_of_ok {yielded : α}
    (course : Course settings oracle value acts before (.ok yielded, after)) : yielded = value := by
  generalize same : (Except.ok yielded, after) = ending at course
  induction course with
  | done =>
      cases same
      rfl
  | goesOn _ _ induction => exact induction same
  | stops _ => cases same

private theorem append_ok (first : Course settings oracle value acts before (.ok value, middle))
    {ending : Except TrialError β × Bench σ}
    (second : Course settings oracle result more middle ending) :
    Course settings oracle result (acts ++ more) before ending := by
  generalize same : (Except.ok value, middle) = between at first
  induction first with
  | done =>
      cases same
      exact second
  | goesOn does _ induction => exact .goesOn does (induction same)
  | stops _ => cases same

private theorem append_error {error : TrialError}
    (stopped : Course settings oracle value acts before (.error error, after)) (result : β)
    (more : List Act) :
    Course settings oracle result (acts ++ more) before (.error error, after) := by
  generalize same : (Except.error error, after) = ending at stopped
  induction stopped with
  | done => cases same
  | goesOn does _ induction => exact .goesOn does (induction same)
  | stops fails =>
      cases same
      exact .stops fails

/-- Two parts after each other take the courses of both. The second is not begun where the first
fails. -/
theorem bind {part : RunM σ α} {next : α → RunM σ β}
    (first : Course settings oracle value acts before (part.run.run before))
    (second : Course settings oracle result more (part.run.run before).2
      ((next value).run.run (part.run.run before).2)) :
    Course settings oracle result (acts ++ more) before ((part >>= next).run.run before) := by
  rw [run_bind]
  generalize part.run.run before = ran at first second
  rcases ran with ⟨_ | yielded, middle⟩
  · exact first.append_error result more
  · cases first.eq_of_ok
    exact first.append_ok second

end Course

/-! ## Courses of parts -/

/-- Whatever the bench, a part takes a course for a value of which this holds. Of what is not done
any more when the part stops, the course only says what it could be. -/
def Takes (settings : Settings) (oracle : Oracle σ) (part : RunM σ α)
    (holds : α → List Act → Prop) : Prop :=
  ∀ before, ∃ value acts, holds value acts ∧
    Course settings oracle value acts before (part.run.run before)

section Takes

variable {part : RunM σ α} {next : α → RunM σ β} {holds : α → List Act → Prop}

private theorem takes_mono {other : α → List Act → Prop} (takes : Takes settings oracle part holds)
    (weaker : ∀ value acts, holds value acts → other value acts) :
    Takes settings oracle part other := by
  intro before
  rcases takes before with ⟨value, acts, given, course⟩
  exact ⟨value, acts, weaker value acts given, course⟩

private theorem takes_pure (given : holds value []) : Takes settings oracle (pure value) holds :=
  fun _ => ⟨value, [], given, .done⟩

private theorem takes_bind {holds : β → List Act → Prop}
    (both : Takes settings oracle part fun value acts =>
      Takes settings oracle (next value) fun result more => holds result (acts ++ more)) :
    Takes settings oracle (part >>= next) holds := by
  intro before
  rcases both before with ⟨value, acts, later, first⟩
  rcases later (part.run.run before).2 with ⟨result, more, given, second⟩
  exact ⟨result, acts ++ more, given, first.bind second⟩

private theorem takes_say {line : String} {holds : Unit → List Act → Prop}
    (given : holds () [.say line]) : Takes settings oracle (say line) holds := by
  refine fun before => ⟨(), _, given, ?_⟩
  rcases said : (say line).run.run before with ⟨_ | _, after⟩
  · exact .stops said
  · exact .goesOn said .done

private theorem takes_handOver {version : Nat} {case : TrialCase} {holds : Bytes → List Act → Prop}
    (given : ∀ stream, holds stream [.handOver version case stream]) :
    Takes settings oracle (handOver settings version case) holds := by
  intro before
  rcases handed : (handOver settings version case).run.run before with ⟨_ | stream, after⟩
  · exact ⟨[], _, given [], .stops handed⟩
  · exact ⟨stream, _, given stream, .goesOn handed .done⟩

private theorem takes_ask {holds : Answer → List Act → Prop}
    (given : ∀ answer, holds answer [.ask answer]) :
    Takes settings oracle (ask settings oracle) holds := by
  intro before
  rcases asked : (ask settings oracle).run.run before with ⟨_ | answer, after⟩
  · exact ⟨_, _, given (.failed .noReport), .stops asked⟩
  · exact ⟨answer, _, given answer, .goesOn asked .done⟩

private theorem takes_sayAll {lines : List String} {holds : PUnit → List Act → Prop}
    (given : holds PUnit.unit (lines.map .say)) :
    Takes settings oracle (lines.forM say) holds := by
  induction lines generalizing holds with
  | nil => exact takes_pure given
  | cons line rest induction =>
      change Takes settings oracle (say line >>= fun _ => rest.forM say) holds
      exact takes_bind (takes_say (induction given))

/-- A loop over the items of a list takes the courses of logs of a kind, one for each item. What it
hands on is told by the logs. -/
private theorem takes_foldlM {Log : Type} {part : β → α → RunM σ β} {of : α → Log → Prop}
    {add : β → Log → β} {acts : Log → List Act}
    (each : ∀ start item, Takes settings oracle (part start item) fun yielded done =>
      ∃ log, of item log ∧ yielded = add start log ∧ done = acts log) (items : List α) (start : β) :
    Takes settings oracle (items.foldlM part start) fun yielded done =>
      ∃ logs, List.Forall₂ of items logs ∧ yielded = logs.foldl add start ∧
        done = logs.flatMap acts := by
  induction items generalizing start with
  | nil => exact takes_pure ⟨[], .nil, rfl, rfl⟩
  | cons item rest induction =>
      rw [List.foldlM_cons]
      refine takes_bind (takes_mono (each start item) fun next done given => ?_)
      rcases given with ⟨log, ofItem, rfl, rfl⟩
      refine takes_mono (induction _) fun yielded done given => ?_
      rcases given with ⟨logs, ofRest, rfl, rfl⟩
      exact ⟨log :: logs, .cons ofItem ofRest, rfl, rfl⟩

end Takes

private theorem takes_runCase (version : Nat) (label : String) (progress : Progress)
    (case : TrialCase) : Takes settings oracle (runCase settings oracle version label progress case)
      fun yielded done => ∃ attempt : Attempt, attempt.subject = (version, label, case) ∧
        yielded = progress.count attempt ∧ done = attempt.acts settings.dump := by
  rw [runCase_eq]
  refine takes_bind (takes_say ?_)
  refine takes_bind (takes_handOver fun stream => ?_)
  refine takes_bind (takes_ask fun answer => ?_)
  refine takes_bind (takes_sayAll (takes_pure ?_))
  refine ⟨{ version, label, case, stream, answer }, rfl, rfl, ?_⟩
  rw [List.append_nil]
  rfl

private theorem takes_runGroup (version : Nat) (progress : Progress) (group : CaseGroup) :
    Takes settings oracle (runGroup settings oracle version progress group) fun yielded done =>
      ∃ log : GroupLog, log.attempts.map Attempt.subject = group.subjects version ∧
        yielded = log.countIn progress ∧ done = log.acts settings.dump := by
  rw [runGroup]
  refine takes_bind (takes_say (takes_mono
    (takes_foldlM (takes_runCase version group.label) group.cases progress)
      fun yielded done given => ?_))
  rcases given with ⟨attempts, all, rfl, rfl⟩
  exact ⟨⟨group.label, attempts⟩, (map_eq_of_forall₂ (fun _ _ same => same.symm) all).symm, rfl, rfl⟩

private theorem takes_runProtocol (corpus : Corpus) (summary : Summary) (version : Nat) :
    Takes settings oracle (runProtocol settings oracle corpus summary version)
      fun yielded done => ∃ log : ProtocolLog,
        log.attempts.map Attempt.subject = corpus.groups.flatMap (CaseGroup.subjects version) ∧
          yielded = log.countIn summary ∧ done = log.acts settings.dump := by
  rw [runProtocol]
  refine takes_bind (takes_say (takes_bind (takes_say (takes_bind (takes_mono
    (takes_foldlM (takes_runGroup version) corpus.groups _) fun progress done given => ?_)))))
  rcases given with ⟨groups, all, rfl, rfl⟩
  refine takes_bind (takes_say (takes_pure ⟨⟨version, groups⟩, ?_, rfl, ?_⟩))
  · rw [ProtocolLog.attempts, List.map_flatMap]
    exact (flatMap_eq_of_forall₂ (fun _ _ same => same.symm) all).symm
  · rw [ProtocolLog.foldl_countIn]
    rfl

/-- A run takes the course of a log of the cases it is to try. -/
theorem takes_runAll (corpus : Corpus) :
    Takes settings oracle (runAll settings oracle corpus) fun yielded done =>
      ∃ log : RunLog, log.attempts.map Attempt.subject = corpus.subjects settings.protocols ∧
        yielded = log.summary ∧ done = log.acts settings.dump := by
  rw [runAll]
  refine takes_bind (takes_mono (takes_foldlM (takes_runProtocol corpus)
    settings.protocols.versions _) fun summary done given => ?_)
  rcases given with ⟨protocols, all, rfl, rfl⟩
  have subjects : (RunLog.mk protocols).attempts.map Attempt.subject =
      corpus.subjects settings.protocols := by
    rw [RunLog.attempts, List.map_flatMap]
    exact (flatMap_eq_of_forall₂ (fun _ _ same => same.symm) all).symm
  rw [RunLog.foldl_countIn_empty]
  refine takes_bind (takes_say (takes_bind (takes_say (takes_pure ?_))))
  exact ⟨⟨protocols⟩, subjects, rfl, rfl⟩

end Run

end PickleTrial
