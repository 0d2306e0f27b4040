import Mathlib.Algebra.GroupWithZero.Nat
import Mathlib.Data.List.Forall2
import Mathlib.Data.List.Nodup
import PickleTrial.Text.HexDump
import PickleTrial.Trial.Corpus
import PickleTrial.Trial.Settings
import PickleTrial.Trial.Summary

/-! Logs of runs: every case that was tried, with the stream it was tried on and the answer to it,
by protocol and group. The summary of a run and the lines of its transcript are read off its log. -/

namespace PickleTrial

structure Attempt where
  version : Nat
  label : String
  case : TrialCase
  stream : Bytes
  answer : Answer

namespace Attempt

def verdict (attempt : Attempt) : Verdict :=
  attempt.case.judge attempt.answer

/-- What is reported of a case that does not pass. -/
def failure? (attempt : Attempt) : Option FailedCase :=
  if attempt.verdict.passed then none
  else some {
    version := attempt.version
    label := attempt.label
    value := attempt.case.render
    diagnostics := attempt.verdict.diagnostics }

/-- The lines that tell of a case that does not pass. -/
def complaint (dump : Bool) (attempt : Attempt) : List String :=
  if attempt.verdict.passed then []
  else
    attempt.verdict.diagnostics.map ("  " ++ ·) ++
      if dump then (HexDump.rows attempt.stream).map fun row => "    " ++ String.ofList row else []

def lines (dump : Bool) (attempt : Attempt) : List String :=
  ("testing " ++ attempt.case.render) :: attempt.complaint dump

/-- Whether the case was tried under the protocol and did not pass. -/
def failsUnder (version : Nat) (attempt : Attempt) : Bool :=
  decide (attempt.version = version) && !attempt.verdict.passed

end Attempt

structure GroupLog where
  label : String
  attempts : List Attempt

structure ProtocolLog where
  version : Nat
  groups : List GroupLog

structure RunLog where
  protocols : List ProtocolLog

namespace GroupLog

def lines (dump : Bool) (log : GroupLog) : List String :=
  ("CHECK CLASS: " ++ log.label) :: log.attempts.flatMap (Attempt.lines dump)

end GroupLog

namespace ProtocolLog

def attempts (log : ProtocolLog) : List Attempt :=
  log.groups.flatMap GroupLog.attempts

def failures (log : ProtocolLog) : List FailedCase :=
  log.attempts.filterMap Attempt.failure?

def tally (log : ProtocolLog) : Tally where
  version := log.version
  attempted := log.attempts.length
  errors := log.attempts.countP fun attempt => !attempt.verdict.passed

def lines (dump : Bool) (log : ProtocolLog) : List String :=
  "" :: ("PICKLE PROTOCOL: " ++ Numeral.natural log.version) ::
    (log.groups.flatMap (GroupLog.lines dump) ++
      ["number of errors for protocol " ++ Numeral.natural log.version ++ ": " ++
        Numeral.natural log.tally.errors])

end ProtocolLog

namespace RunLog

def attempts (log : RunLog) : List Attempt :=
  log.protocols.flatMap ProtocolLog.attempts

def summary (log : RunLog) : Summary where
  tallies := log.protocols.map ProtocolLog.tally
  failures := log.attempts.filterMap Attempt.failure?
  totalErrors := log.attempts.countP fun attempt => !attempt.verdict.passed

def lines (dump : Bool) (log : RunLog) : List String :=
  log.protocols.flatMap (ProtocolLog.lines dump) ++
    ["", "Total number of errors: " ++ Numeral.natural log.summary.totalErrors]

end RunLog

/-! ## What was to be tried -/

/-- What a case is tried under, and the case. -/
abbrev Subject := Nat × String × TrialCase

def Attempt.subject (attempt : Attempt) : Subject :=
  (attempt.version, attempt.label, attempt.case)

/-- The stream is that of the case under the protocol. -/
def Attempt.Encoded (attempt : Attempt) : Prop :=
  attempt.case.graph.pickle attempt.version attempt.case.root = .ok attempt.stream

def CaseGroup.subjects (version : Nat) (group : CaseGroup) : List Subject :=
  group.cases.map fun case => (version, group.label, case)

/-- The cases of all groups under all protocols, in order. -/
def Corpus.subjects (protocols : ProtocolRange) (corpus : Corpus) : List Subject :=
  protocols.versions.flatMap fun version => corpus.groups.flatMap (CaseGroup.subjects version)

structure GroupLog.Of (version : Nat) (group : CaseGroup) (log : GroupLog) : Prop where
  label : log.label = group.label
  subjects : log.attempts.map Attempt.subject = group.subjects version
  encoded : ∀ attempt ∈ log.attempts, attempt.Encoded

structure ProtocolLog.Of (corpus : Corpus) (version : Nat) (log : ProtocolLog) : Prop where
  protocol : log.version = version
  groups : List.Forall₂ (GroupLog.Of version) corpus.groups log.groups

def RunLog.Of (protocols : ProtocolRange) (corpus : Corpus) (log : RunLog) : Prop :=
  List.Forall₂ (ProtocolLog.Of corpus) protocols.versions log.protocols

/-! ## What follows -/

section Forall₂

variable {α β γ : Type} {of : α → β → Prop} {firsts : List α} {seconds : List β}

theorem map_eq_of_forall₂ {left : α → γ} {right : β → γ}
    (equal : ∀ first second, of first second → left first = right second)
    (all : List.Forall₂ of firsts seconds) : firsts.map left = seconds.map right := by
  rw [← List.forall₂_eq_eq_eq]
  exact List.rel_map equal all

theorem flatMap_eq_of_forall₂ {left : α → List γ} {right : β → List γ}
    (equal : ∀ first second, of first second → left first = right second)
    (all : List.Forall₂ of firsts seconds) : firsts.flatMap left = seconds.flatMap right := by
  rw [← List.forall₂_eq_eq_eq]
  apply List.rel_flatMap all
  intro first second holds
  rw [List.forall₂_eq_eq_eq]
  exact equal first second holds

private theorem exists_of_mem_of_forall₂ (all : List.Forall₂ of firsts seconds) {second : β}
    (member : second ∈ seconds) : ∃ first ∈ firsts, of first second := by
  induction all with
  | nil => cases member
  | @cons head other _ _ holds _ induction =>
      rcases List.mem_cons.1 member with rfl | later
      · exact ⟨head, List.mem_cons_self, holds⟩
      · rcases induction later with ⟨first, inFirsts, holds⟩
        exact ⟨first, List.mem_cons_of_mem _ inFirsts, holds⟩

end Forall₂

theorem GroupLog.of_forall₂ {version : Nat} {group : CaseGroup} {attempts : List Attempt}
    (all : List.Forall₂ (fun case attempt =>
      attempt.subject = (version, group.label, case) ∧ attempt.Encoded) group.cases attempts) :
    GroupLog.Of version group ⟨group.label, attempts⟩ where
  label := rfl
  subjects := (map_eq_of_forall₂ (fun _ _ of => of.1.symm) all).symm
  encoded attempt member := by
    rcases exists_of_mem_of_forall₂ all member with ⟨_, _, of⟩
    exact of.2

private theorem ProtocolLog.Of.subjects {corpus : Corpus} {version : Nat} {log : ProtocolLog}
    (of : log.Of corpus version) :
    log.attempts.map Attempt.subject = corpus.groups.flatMap (CaseGroup.subjects version) := by
  rw [attempts, List.map_flatMap]
  exact (flatMap_eq_of_forall₂ (fun _ _ of => of.subjects.symm) of.groups).symm

/-- Exactly the cases of the corpus were tried, once under each protocol. -/
theorem RunLog.Of.subjects {protocols : ProtocolRange} {corpus : Corpus} {log : RunLog}
    (of : log.Of protocols corpus) :
    log.attempts.map Attempt.subject = corpus.subjects protocols := by
  rw [attempts, List.map_flatMap]
  exact (flatMap_eq_of_forall₂ (fun _ _ of => of.subjects.symm) of).symm

theorem RunLog.Of.encoded {protocols : ProtocolRange} {corpus : Corpus} {log : RunLog}
    (of : log.Of protocols corpus) : ∀ attempt ∈ log.attempts, attempt.Encoded := by
  intro attempt member
  rcases List.mem_flatMap.1 member with ⟨protocol, inLog, member⟩
  rcases exists_of_mem_of_forall₂ of inLog with ⟨version, -, ofProtocol⟩
  rcases List.mem_flatMap.1 member with ⟨group, inProtocol, member⟩
  rcases exists_of_mem_of_forall₂ ofProtocol.groups inProtocol with ⟨_, -, ofGroup⟩
  exact ofGroup.encoded attempt member

theorem RunLog.Of.versions {protocols : ProtocolRange} {corpus : Corpus} {log : RunLog}
    (of : log.Of protocols corpus) :
    log.protocols.map ProtocolLog.version = protocols.versions := by
  have same := map_eq_of_forall₂ (fun _ _ of => of.protocol.symm) of
  rw [← same, List.map_id']

/-- The log has as many attempts under a protocol as the corpus has cases. -/
private theorem ProtocolLog.attempted_of_subjects {corpus : Corpus} {version : Nat}
    {log : ProtocolLog} (subjects : log.attempts.map Attempt.subject =
      corpus.groups.flatMap (CaseGroup.subjects version)) :
    log.tally.attempted = corpus.size := by
  have same := congrArg List.length subjects
  rw [List.length_map] at same
  rw [tally, same, Corpus.size, Corpus.cases, List.length_flatMap, List.length_flatMap]
  simp only [CaseGroup.subjects, List.length_map]

private theorem ProtocolLog.Of.version_of_mem {corpus : Corpus} {version : Nat} {log : ProtocolLog}
    (of : log.Of corpus version) {attempt : Attempt} (member : attempt ∈ log.attempts) :
    attempt.version = log.version := by
  have known : attempt.subject ∈ corpus.groups.flatMap (CaseGroup.subjects version) := by
    rw [← of.subjects]
    exact List.mem_map_of_mem member
  rcases List.mem_flatMap.1 known with ⟨group, -, inGroup⟩
  rcases List.mem_map.1 inGroup with ⟨case, -, equal⟩
  rw [of.protocol]
  exact (congrArg Prod.fst equal).symm

private theorem ProtocolRange.nodup_versions (protocols : ProtocolRange) :
    protocols.versions.Nodup :=
  List.nodup_range'

private theorem ProtocolLog.Of.countP_failsUnder_self {corpus : Corpus} {version : Nat}
    {log : ProtocolLog} (of : log.Of corpus version) :
    log.attempts.countP (Attempt.failsUnder log.version) = log.tally.errors := by
  apply List.countP_congr
  intro attempt member
  rw [Attempt.failsUnder, of.version_of_mem member, decide_eq_true rfl, Bool.true_and]

private theorem ProtocolLog.Of.countP_failsUnder_of_ne {corpus : Corpus} {version other : Nat}
    {log : ProtocolLog} (of : log.Of corpus version) (different : log.version ≠ other) :
    log.attempts.countP (Attempt.failsUnder other) = 0 := by
  apply List.countP_eq_zero.2
  intro attempt member
  rw [Attempt.failsUnder, of.version_of_mem member, decide_eq_false different]
  simp

/-- Every tally counts the attempts under its protocol that did not pass. -/
theorem RunLog.Of.errors {protocols : ProtocolRange} {corpus : Corpus} {log : RunLog}
    (of : log.Of protocols corpus) : ∀ tally ∈ log.summary.tallies,
      tally.errors = log.attempts.countP (Attempt.failsUnder tally.version) := by
  intro tally member
  rcases List.mem_map.1 member with ⟨protocol, inLog, rfl⟩
  change protocol.tally.errors = log.attempts.countP (Attempt.failsUnder protocol.version)
  rcases exists_of_mem_of_forall₂ of inLog with ⟨_, -, ofProtocol⟩
  rcases List.append_of_mem inLog with ⟨before, after, split⟩
  have distinct : (log.protocols.map ProtocolLog.version).Nodup := by
    rw [of.versions]
    exact protocols.nodup_versions
  rw [split, List.map_append, List.map_cons, List.nodup_middle, List.nodup_cons,
    ← List.map_append] at distinct
  have others : ∀ other ∈ before ++ after,
      other.attempts.countP (Attempt.failsUnder protocol.version) = 0 := by
    intro other member
    have within : other ∈ log.protocols := by
      rw [split]
      simpa [or_left_comm] using Or.inr (List.mem_append.1 member)
    rcases exists_of_mem_of_forall₂ of within with ⟨_, -, ofOther⟩
    exact ofOther.countP_failsUnder_of_ne fun same =>
      distinct.1 (List.mem_map.2 ⟨other, member, same⟩)
  have zero : ((before ++ after).map
      (List.countP (Attempt.failsUnder protocol.version) ∘ ProtocolLog.attempts)).sum = 0 := by
    rw [List.sum_eq_zero_iff_forall_eq_nat, List.forall_mem_map]
    exact others
  rw [List.map_append, List.sum_append_nat] at zero
  rw [attempts, split, List.countP_flatMap, List.map_append, List.map_cons, List.sum_append_nat,
    List.sum_cons]
  change _ = _ + (protocol.attempts.countP (Attempt.failsUnder protocol.version) + _)
  rw [ofProtocol.countP_failsUnder_self]
  omega

private theorem TrialCase.diagnostics_judge_ne_nil {case : TrialCase} {answer : Answer}
    (failed : (case.judge answer).passed = false) : (case.judge answer).diagnostics ≠ [] := by
  cases answer with
  | failed failure => simp [judge, Verdict.diagnostics]
  | report report =>
      change (case.compare report).passed = false at failed
      change (case.compare report).diagnostics ≠ []
      rw [compare] at failed ⊢
      split at failed
      · cases failed
      · rename_i differs
        rw [if_neg differs]
        simpa [Verdict.diagnostics] using differs

private theorem Attempt.failure?_eq_some {attempt : Attempt} {failure : FailedCase} :
    attempt.failure? = some failure ↔ attempt.verdict.passed = false ∧
      failure = {
        version := attempt.version
        label := attempt.label
        value := attempt.case.render
        diagnostics := attempt.verdict.diagnostics } := by
  rw [failure?]
  cases attempt.verdict.passed with
  | true => simp
  | false => simp [eq_comm]

/-- Attempts that did not pass are counted and reported alike. -/
theorem Attempt.length_failures (attempts : List Attempt) :
    (attempts.filterMap failure?).length =
      attempts.countP fun attempt => !attempt.verdict.passed := by
  rw [List.length_filterMap_eq_countP]
  congr 1
  funext attempt
  rw [failure?]
  cases attempt.verdict.passed with
  | true => rfl
  | false => rfl

theorem RunLog.Of.attempted {protocols : ProtocolRange} {corpus : Corpus} {log : RunLog}
    (of : log.Of protocols corpus) :
    ∀ tally ∈ log.summary.tallies, tally.attempted = corpus.size := by
  intro tally member
  rcases List.mem_map.1 member with ⟨protocol, inLog, rfl⟩
  rcases exists_of_mem_of_forall₂ of inLog with ⟨version, -, ofProtocol⟩
  exact ProtocolLog.attempted_of_subjects ofProtocol.subjects

namespace RunLog

variable (log : RunLog)

theorem diagnostics_ne_nil : ∀ failure ∈ log.summary.failures, failure.diagnostics ≠ [] := by
  intro failure member
  rcases List.mem_filterMap.1 member with ⟨attempt, -, found⟩
  rcases Attempt.failure?_eq_some.1 found with ⟨failed, rfl⟩
  exact TrialCase.diagnostics_judge_ne_nil failed

/-- There are as many errors in all as failures. -/
theorem totalErrors_eq_length : log.summary.totalErrors = log.summary.failures.length :=
  (Attempt.length_failures log.attempts).symm

/-- There are as many errors in all as under all protocols together. -/
theorem totalErrors_eq_sum :
    log.summary.totalErrors = (log.summary.tallies.map Tally.errors).sum := by
  have each : (Tally.errors ∘ ProtocolLog.tally) = fun protocol : ProtocolLog =>
      protocol.attempts.countP fun attempt => !attempt.verdict.passed := rfl
  rw [summary, attempts, List.countP_flatMap, List.map_map, each]
  rfl

end RunLog

/-! ## Counting -/

/-- The progress when one more case was tried. -/
def Progress.count (progress : Progress) (attempt : Attempt) : Progress :=
  match attempt.failure? with
  | none => progress.tried
  | some failure => progress.tried.missed.reported failure

def GroupLog.countIn (progress : Progress) (log : GroupLog) : Progress :=
  log.attempts.foldl Progress.count progress

/-- The summary when one more protocol was tried. -/
def ProtocolLog.countIn (summary : Summary) (log : ProtocolLog) : Summary :=
  (log.groups.foldl GroupLog.countIn { tally := { version := log.version }, summary }).close

/-- Counting attempts one by one adds their number, the number of those that did not pass, and what
is reported of these. -/
private theorem Progress.foldl_count (attempts : List Attempt) (progress : Progress) :
    attempts.foldl count progress = {
      tally := {
        version := progress.tally.version
        attempted := progress.tally.attempted + attempts.length
        errors := progress.tally.errors +
          attempts.countP fun attempt => !attempt.verdict.passed }
      summary := { progress.summary with
        failures := progress.summary.failures ++ attempts.filterMap Attempt.failure? } } := by
  induction attempts generalizing progress with
  | nil => simp
  | cons attempt rest induction =>
      rw [List.foldl_cons, induction, count, List.length_cons]
      cases passed : attempt.verdict.passed with
      | true =>
          have fine : attempt.failure? = none := if_pos passed
          rw [List.countP_cons_of_neg (by simp [passed]), List.filterMap_cons_none fine, fine]
          simp only [tried, mk.injEq, Tally.mk.injEq, true_and, and_true]
          omega
      | false =>
          rcases failed : attempt.failure? with _ | failure
          · simp [Attempt.failure?, passed] at failed
          · rw [List.countP_cons_of_pos (by simp [passed]), List.filterMap_cons_some failed]
            simp only [tried, missed, reported, List.append_assoc, List.singleton_append,
              mk.injEq, Tally.mk.injEq, true_and, and_true]
            omega

private theorem GroupLog.foldl_countIn (groups : List GroupLog) (progress : Progress) :
    groups.foldl countIn progress =
      (groups.flatMap attempts).foldl Progress.count progress := by
  rw [List.foldl_flatMap]
  rfl

theorem ProtocolLog.foldl_countIn (version : Nat) (groups : List GroupLog) (summary : Summary) :
    groups.foldl GroupLog.countIn { tally := { version }, summary } = {
      tally := tally ⟨version, groups⟩
      summary := { summary with
        failures := summary.failures ++ failures ⟨version, groups⟩ } } := by
  rw [GroupLog.foldl_countIn, Progress.foldl_count]
  simp only [Nat.zero_add]
  rfl

/-- Counting protocols one by one adds their tallies, the errors of these, and what is reported
under them. -/
private theorem RunLog.foldl_countIn (protocols : List ProtocolLog) (begun : Summary) :
    protocols.foldl ProtocolLog.countIn begun = {
      tallies := begun.tallies ++ (summary ⟨protocols⟩).tallies
      failures := begun.failures ++ (summary ⟨protocols⟩).failures
      totalErrors := begun.totalErrors + (summary ⟨protocols⟩).totalErrors } := by
  induction protocols generalizing begun with
  | nil => simp [summary, attempts]
  | cons log rest induction =>
      rw [List.foldl_cons, induction, ProtocolLog.countIn, ProtocolLog.foldl_countIn]
      simp [Progress.close, summary, attempts, ProtocolLog.failures, ProtocolLog.tally,
        Nat.add_assoc]

theorem RunLog.foldl_countIn_empty (protocols : List ProtocolLog) :
    protocols.foldl ProtocolLog.countIn {} = summary ⟨protocols⟩ := by
  rw [RunLog.foldl_countIn]
  simp

end PickleTrial
