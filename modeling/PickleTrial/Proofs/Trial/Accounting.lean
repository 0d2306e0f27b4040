import PickleTrial.Proofs.Trial.Recording

/-! The accounting of runs. A run that comes to its end has a log of every case under every
protocol; its summary, its transcript and what its oracle was asked are those of the log. -/

namespace PickleTrial

variable {σ α β : Type}

def Transcript.bytes (lines : List String) : Bytes :=
  lines.flatMap fun line => Utf8.encode (line ++ "\n")

/-- What the oracle is asked in an attempt. -/
def Attempt.consultation (settings : Settings) (attempt : Attempt) : Consultation :=
  ⟨settings.streamPath, settings.reportPath, .ok attempt.stream, .ok attempt.answer⟩

namespace Sink

private theorem contents_of_write {sink after : Sink} {run : ByteRun}
    (written : sink.write run = (.ok (), after)) :
    after.contents = sink.contents ++ run.bytes := by
  have kept : (sink.keep run).contents = sink.contents ++ run.bytes := contents_keep
  rw [write] at written
  split at written
  · cases written
    exact kept
  · split at written
    · cases written
      exact kept
    · cases written

end Sink

namespace Run

/-- What a part of a run adds to the transcript and to the record. -/
structure Adds (before after : Bench (σ × List Consultation)) (lines : List String)
    (record : List Consultation) : Prop where
  transcript : after.transcript.contents = before.transcript.contents ++ Transcript.bytes lines
  recorded : after.state.2 = before.state.2 ++ record

namespace Adds

variable {first second third : Bench (σ × List Consultation)} {lines more : List String}
  {record further : List Consultation}

private theorem refl (bench : Bench (σ × List Consultation)) : Adds bench bench [] [] where
  transcript := (List.append_nil _).symm
  recorded := (List.append_nil _).symm

private theorem trans (left : Adds first second lines record)
    (right : Adds second third more further) :
    Adds first third (lines ++ more) (record ++ further) where
  transcript := by
    rw [right.transcript, left.transcript, List.append_assoc, Transcript.bytes, Transcript.bytes,
      Transcript.bytes, List.flatMap_append]
  recorded := by rw [right.recorded, left.recorded, List.append_assoc]

private theorem tell (left : Adds first second lines record) (right : Adds second third more []) :
    Adds first third (lines ++ more) record := by
  have both := left.trans right
  rwa [List.append_nil] at both

end Adds

section Parts

variable {before after : Bench (σ × List Consultation)}

private theorem adds_say {line : String} {value : Unit}
    (yields : Yields (say line) before value after) : Adds before after [line] [] := by
  rw [Yields] at yields
  rw [run_say] at yields
  cases written : before.transcript.write (.ofBytes (Utf8.encode (line ++ "\n"))) with
  | mk result transcript =>
      rw [written] at yields
      cases result with
      | error => cases yields
      | ok =>
          cases yields
          refine ⟨?_, (List.append_nil _).symm⟩
          rw [Sink.contents_of_write written, Transcript.bytes, List.flatMap_singleton,
            ByteRun.bytes_ofBytes]

private theorem adds_forM_say {lines : List String} {value : PUnit}
    (yields : Yields (lines.forM say) before value after) : Adds before after lines [] := by
  induction lines generalizing before with
  | nil =>
      cases yields_pure.1 yields
      exact .refl after
  | cons line rest induction =>
      rcases yields_bind.1 yields with ⟨_, middle, said, others⟩
      exact (adds_say said).trans (induction others)

private theorem adds_handOver {settings : Settings} {version : Nat} {case : TrialCase}
    {stream : Bytes} (yields : Yields (handOver settings version case) before stream after) :
    Adds before after [] [] ∧ case.graph.pickle version case.root = .ok stream ∧
      after.files.read settings.streamPath = .ok stream := by
  rw [Yields] at yields
  rw [run_handOver] at yields
  cases handed : before.files.writeStream case version settings.streamPath with
  | error => rw [handed] at yields; cases yields
  | ok found =>
      rcases found with ⟨found, files⟩
      rw [handed] at yields
      cases yields
      rcases Files.writeStream_eq_ok handed with ⟨encoded, written⟩
      exact ⟨⟨(List.append_nil _).symm, (List.append_nil _).symm⟩, encoded,
        Files.read_of_write written⟩

private theorem adds_ask {settings : Settings} {oracle : Oracle σ} {answer : Answer}
    (yields : Yields (ask settings oracle.recorded) before answer after) :
    Adds before after [] [⟨settings.streamPath, settings.reportPath,
      before.files.read settings.streamPath, .ok answer⟩] := by
  rw [Yields] at yields
  rw [run_ask] at yields
  have answered : (oracle.answer settings.streamPath settings.reportPath
      ⟨before.files, before.state.1⟩).1 = .ok answer := congrArg Prod.fst yields
  rcases (congrArg Prod.snd yields).symm with rfl
  refine ⟨(List.append_nil _).symm, ?_⟩
  rw [← answered]
  rfl

variable (settings : Settings)

/-- Wherever a part of a run comes to its end, there is a log of a kind off which is read what it
yields and what it adds. -/
def Keeps {Log : Type} (part : RunM (σ × List Consultation) α) (of : Log → Prop)
    (value : Log → α) (lines : Log → List String) (attempts : Log → List Attempt) : Prop :=
  ∀ before result after, Yields part before result after →
    ∃ log, of log ∧ result = value log ∧
      Adds before after (lines log) ((attempts log).map (Attempt.consultation settings))

/-- A loop over the items of a list keeps a log for each. What it hands on is told by the logs. -/
private theorem keeps_foldlM {Log : Type} {part : β → α → RunM (σ × List Consultation) β}
    {of : α → Log → Prop} {add : β → Log → β} {lines : Log → List String}
    {attempts : Log → List Attempt}
    (each : ∀ start item, Keeps settings (part start item) (of item) (add start) lines attempts)
    (items : List α) (start : β) :
    Keeps settings (items.foldlM part start) (List.Forall₂ of items) (List.foldl add start)
      (List.flatMap lines) (List.flatMap attempts) := by
  induction items generalizing start with
  | nil =>
      intro before value after yields
      cases yields
      exact ⟨[], .nil, rfl, .refl before⟩
  | cons item rest induction =>
      intro before value after yields
      rw [List.foldlM_cons] at yields
      rcases yields_bind.1 yields with ⟨next, middle, first, second⟩
      rcases each start item _ _ _ first with ⟨log, of, rfl, adds⟩
      rcases induction _ _ _ _ second with ⟨logs, all, rfl, addsOthers⟩
      refine ⟨log :: logs, .cons of all, rfl, ?_⟩
      rw [List.flatMap_cons, List.flatMap_cons, List.map_append]
      exact adds.trans addsOthers

variable (oracle : Oracle σ)

private theorem keeps_runCase (version : Nat) (label : String) (progress : Progress)
    (case : TrialCase) :
    Keeps settings (runCase settings oracle.recorded version label progress case)
      (fun attempt => attempt.subject = (version, label, case) ∧ attempt.Encoded)
      progress.count (Attempt.lines settings.dump) (fun attempt => [attempt]) := by
  intro before result after yields
  rw [runCase_eq] at yields
  rcases yields_bind.1 yields with ⟨_, first, said, yields⟩
  rcases yields_bind.1 yields with ⟨stream, second, handed, yields⟩
  rcases yields_bind.1 yields with ⟨answer, third, asked, yields⟩
  rcases yields_bind.1 yields with ⟨_, last, complained, yields⟩
  cases yields
  rcases adds_handOver handed with ⟨addsHanded, encoded, inFile⟩
  have addsAsked := adds_ask asked
  rw [inFile] at addsAsked
  refine ⟨{ version, label, case, stream, answer }, ⟨rfl, encoded⟩, rfl, ?_⟩
  exact (adds_say said).trans (addsHanded.trans (addsAsked.trans (adds_forM_say complained)))

private theorem keeps_runGroup (version : Nat) (progress : Progress) (group : CaseGroup) :
    Keeps settings (runGroup settings oracle.recorded version progress group)
      (GroupLog.Of version group) (GroupLog.countIn progress) (GroupLog.lines settings.dump)
      GroupLog.attempts := by
  intro before result after yields
  rcases yields_bind.1 yields with ⟨_, first, said, tried⟩
  have keeps := keeps_foldlM settings (keeps_runCase settings oracle version group.label)
    group.cases progress _ _ _ tried
  rcases keeps with ⟨attempts, all, rfl, adds⟩
  rw [List.flatMap_singleton'] at adds
  exact ⟨_, GroupLog.of_forall₂ all, rfl, (adds_say said).trans adds⟩

private theorem keeps_runProtocol (corpus : Corpus) (summary : Summary) (version : Nat) :
    Keeps settings (runProtocol settings oracle.recorded corpus summary version)
      (ProtocolLog.Of corpus version) (ProtocolLog.countIn summary)
      (ProtocolLog.lines settings.dump) ProtocolLog.attempts := by
  intro before result after yields
  rcases yields_bind.1 yields with ⟨_, first, blank, yields⟩
  rcases yields_bind.1 yields with ⟨_, second, headed, yields⟩
  rcases yields_bind.1 yields with ⟨progress, third, tried, yields⟩
  rcases yields_bind.1 yields with ⟨_, last, counted, yields⟩
  cases yields
  rcases keeps_foldlM settings (keeps_runGroup settings oracle version) corpus.groups _ _ _ _ tried
    with ⟨groups, all, rfl, adds⟩
  rw [ProtocolLog.foldl_countIn] at counted
  exact ⟨⟨version, groups⟩, ⟨rfl, all⟩, rfl,
    (adds_say blank).trans ((adds_say headed).trans (adds.tell (adds_say counted)))⟩

private theorem keeps_runAll (corpus : Corpus) :
    Keeps settings (runAll settings oracle.recorded corpus) (RunLog.Of settings.protocols corpus)
      RunLog.summary (RunLog.lines settings.dump) RunLog.attempts := by
  intro before result after yields
  rcases yields_bind.1 yields with ⟨summary, first, tried, yields⟩
  rcases yields_bind.1 yields with ⟨_, second, blank, yields⟩
  rcases yields_bind.1 yields with ⟨_, last, counted, yields⟩
  cases yields
  rcases keeps_foldlM settings (keeps_runProtocol settings oracle corpus)
    settings.protocols.versions _ _ _ _ tried with ⟨protocols, all, rfl, adds⟩
  rw [RunLog.foldl_countIn_empty] at counted
  exact ⟨⟨protocols⟩, all, RunLog.foldl_countIn_empty protocols,
    adds.tell ((adds_say blank).tell (adds_say counted))⟩

end Parts

end Run

/-- What is known of a run that came to its end with a summary. -/
structure Accounted (settings : Settings) (oracle : Oracle σ) (corpus : Corpus)
    (before : Bench σ) (summary : Summary) (after : Bench σ) (log : RunLog) : Prop where
  /-- Every case was tried once under every protocol, in order. -/
  subjects : log.attempts.map Attempt.subject = corpus.subjects settings.protocols
  /-- Every case was tried on the stream of its value. -/
  encoded : ∀ attempt ∈ log.attempts, attempt.Encoded
  /-- The oracle was asked once in each attempt and not otherwise, with the stream in its file. -/
  consulted : run settings oracle.recorded corpus (before.recorded []) =
    (.ok summary, after.recorded (log.attempts.map (Attempt.consultation settings)))
  versions : summary.tallies.map Tally.version =
    List.range' settings.protocols.lowest
      (settings.protocols.highest + 1 - settings.protocols.lowest)
  attempted : ∀ tally ∈ summary.tallies, tally.attempted = corpus.size
  errors : ∀ tally ∈ summary.tallies,
    tally.errors = log.attempts.countP (Attempt.failsUnder tally.version)
  failures : summary.failures = log.attempts.filterMap Attempt.failure?
  diagnostics : ∀ failure ∈ summary.failures, failure.diagnostics ≠ []
  total : summary.totalErrors = summary.failures.length
  /-- The errors in all, which the run counts for itself, are those of the tallies together. -/
  sum : summary.totalErrors = (summary.tallies.map Tally.errors).sum
  /-- The transcript has the lines of the log and no others. -/
  transcript : after.transcript.contents =
    before.transcript.contents ++ Transcript.bytes (log.lines settings.dump)
  /-- The counts in these lines are those of the summary. -/
  summarized : summary = log.summary

/-- A run that comes to its end accounts for every case under every protocol. -/
theorem exists_accounted_of_run {settings : Settings} {oracle : Oracle σ} {corpus : Corpus}
    {before after : Bench σ} {summary : Summary}
    (finished : run settings oracle corpus before = (.ok summary, after)) :
    ∃ log, Accounted settings oracle corpus before summary after log := by
  have mirrored := run_recorded settings oracle corpus before []
  rcases ran : (Run.runAll settings oracle.recorded corpus).run.run (before.recorded []) with
    ⟨result, last⟩
  have whole : run settings oracle.recorded corpus (before.recorded []) =
      (result, Run.cleanUp settings last) := by
    rw [run]
    rw [ran]
  rw [finished, whole] at mirrored
  have same : result = .ok summary := (congrArg Prod.fst mirrored).symm
  subst same
  have same : after = (Run.cleanUp settings last).forget := congrArg Prod.snd mirrored
  subst same
  rcases Run.keeps_runAll settings oracle corpus _ _ _ ran with ⟨log, of, rfl, adds⟩
  have recorded : last.state.2 = log.attempts.map (Attempt.consultation settings) := adds.recorded
  refine ⟨log, {
    subjects := of.subjects
    encoded := of.encoded
    consulted := ?_
    versions := ?_
    attempted := of.attempted
    errors := of.errors
    failures := rfl
    diagnostics := log.diagnostics_ne_nil
    total := log.totalErrors_eq_length
    sum := log.totalErrors_eq_sum
    transcript := adds.transcript
    summarized := rfl }⟩
  · rw [whole, ← recorded]
    rfl
  · rw [RunLog.summary, List.map_map]
    exact of.versions

/-- An oracle that reports the first time only, under two protocols, with a group of no cases. -/
theorem exists_accounted_forgetful :
    ∃ after log, Accounted
      { protocols := { lowest := 0, highest := 1 } }
      ⟨fun _ _ around =>
        (.ok (if around.state = 0 then .report ⟨"java.lang.Integer", "5"⟩ else .failed .noReport),
          { around with state := around.state + 1 })⟩
      ⟨[⟨"java.lang.Integer", [⟨⟨#[.int 5]⟩, 0, "java.lang.Integer", "5"⟩]⟩, ⟨"null object", []⟩]⟩
      ⟨{}, 0, {}⟩
      ⟨[⟨0, 1, 0⟩, ⟨1, 1, 1⟩],
        [⟨1, "java.lang.Integer", "5", ["No outputfile. Skipping to next test."]⟩], 1⟩
      after log := by
  have finish {ran : Except TrialError Summary × Bench Nat} {summary : Summary}
      (ends : ran.1 = .ok summary) : ran = (.ok summary, ran.2) := by rw [← ends]
  exact ⟨_, exists_accounted_of_run (finish (by decide +kernel))⟩

end PickleTrial
