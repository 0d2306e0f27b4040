import PickleTrial.Proofs.Encoding.Sending
import PickleTrial.Proofs.Trial.Log
import PickleTrial.Trial.Run

/-! Runs and their parts. A run tells lines, hands streams over and asks its oracle, and does
nothing else; so what holds of these, and of parts made of parts of which it holds, holds of
runs. -/

namespace PickleTrial

namespace Run

variable {σ τ α β : Type}

/-! ## What the smallest parts do -/

theorem run_say (line : String) (bench : Bench σ) :
    (say line).run.run bench =
      ((bench.transcript.write (.ofBytes (Utf8.encode (line ++ "\n")))).1.mapError .transcript,
        { bench with transcript := (bench.transcript.write (.ofBytes (Utf8.encode (line ++ "\n")))).2 }) := by
  rw [say]
  rw [run_bind, run_get]
  rcases equal : bench.transcript.write (.ofBytes (Utf8.encode (line ++ "\n"))) with ⟨_ | written, transcript⟩
  · simp only [equal]
    rfl
  · simp only [equal]
    rfl

theorem run_handOver (settings : Settings) (version : Nat) (case : TrialCase) (bench : Bench σ) :
    (handOver settings version case).run.run bench =
      match bench.files.writeStream case version settings.streamPath with
      | .ok (stream, files) => (.ok stream, { bench with files })
      | .error error => (.error error, bench) := by
  rw [handOver]
  rw [run_bind, run_get]
  rcases equal : bench.files.writeStream case version settings.streamPath with _ | ⟨stream, files⟩
  · simp only [equal]
    rfl
  · simp only [equal]
    rfl

theorem run_ask (settings : Settings) (oracle : Oracle σ) (bench : Bench σ) :
    (ask settings oracle).run.run bench =
      ((oracle.answer settings.streamPath settings.reportPath ⟨bench.files, bench.state⟩).1,
        { bench with
          files := (oracle.answer settings.streamPath settings.reportPath
            ⟨bench.files, bench.state⟩).2.files
          state := (oracle.answer settings.streamPath settings.reportPath
            ⟨bench.files, bench.state⟩).2.state }) := by
  rw [ask]
  rw [run_bind, run_get]
  rcases equal : oracle.answer settings.streamPath settings.reportPath
    ⟨bench.files, bench.state⟩ with ⟨_ | answer, around⟩
  · simp only [equal]
    rfl
  · simp only [equal]
    rfl

/-- A case is tried by telling of it, handing it over, asking, and telling what was wrong; then it
is counted. -/
theorem runCase_eq (settings : Settings) (oracle : Oracle σ) (version : Nat) (label : String)
    (progress : Progress) (case : TrialCase) :
    runCase settings oracle version label progress case = (do
      say ("testing " ++ case.render)
      let stream ← handOver settings version case
      let answer ← ask settings oracle
      let attempt : Attempt := { version, label, case, stream, answer }
      (attempt.complaint settings.dump).forM say
      return progress.count attempt) := by
  rw [runCase]
  refine bind_congr fun _ => bind_congr fun stream => bind_congr fun answer => ?_
  unfold Progress.count Attempt.complaint Attempt.failure? Attempt.verdict
  cases passed : (case.judge answer).passed with
  | true => simp [passed]
  | false =>
      cases dump : settings.dump with
      | true => simp [passed, List.forM_append]
      | false => simp [passed]

/-! ## What holds of all parts -/

/-- A relation between parts of runs under two oracles that holds of the smallest parts, and of
parts made of parts of which it holds. -/
structure Alike (settings : Settings) (oracle : Oracle σ) (other : Oracle τ)
    (related : {α : Type} → RunM σ α → RunM τ α → Prop) : Prop where
  pure : ∀ {α : Type} (value : α), related (pure value) (pure value)
  bind : ∀ {α β : Type} {first : RunM σ α} {second : RunM τ α} {next : α → RunM σ β}
    {after : α → RunM τ β}, related first second → (∀ value, related (next value) (after value)) →
      related (first >>= next) (second >>= after)
  say : ∀ line, related (say line) (say line)
  handOver : ∀ version case,
    related (handOver settings version case) (handOver settings version case)
  ask : related (ask settings oracle) (ask settings other)

namespace Alike

variable {settings : Settings} {oracle : Oracle σ} {other : Oracle τ}
  {related : {α : Type} → RunM σ α → RunM τ α → Prop}

theorem foldlM (alike : Alike settings oracle other related) {first : β → α → RunM σ β}
    {second : β → α → RunM τ β} (each : ∀ start item, related (first start item) (second start item))
    (items : List α) (start : β) :
    related (items.foldlM first start) (items.foldlM second start) := by
  induction items generalizing start with
  | nil => exact alike.pure start
  | cons item rest induction =>
      rw [List.foldlM_cons, List.foldlM_cons]
      exact alike.bind (each start item) induction

private theorem sayAll (alike : Alike settings oracle other related) (lines : List String) :
    related (lines.forM Run.say) (lines.forM Run.say) := by
  induction lines with
  | nil => exact alike.pure PUnit.unit
  | cons line rest induction => exact alike.bind (alike.say line) fun _ => induction

theorem runCase (alike : Alike settings oracle other related) (version : Nat) (label : String)
    (progress : Progress) (case : TrialCase) :
    related (runCase settings oracle version label progress case)
      (runCase settings other version label progress case) := by
  rw [runCase_eq, runCase_eq]
  apply alike.bind (alike.say _)
  intro _
  apply alike.bind (alike.handOver version case)
  intro stream
  apply alike.bind alike.ask
  intro answer
  exact alike.bind (alike.sayAll _) fun _ => alike.pure _

theorem runGroup (alike : Alike settings oracle other related) (version : Nat)
    (progress : Progress) (group : CaseGroup) :
    related (runGroup settings oracle version progress group)
      (runGroup settings other version progress group) := by
  apply alike.bind (alike.say _)
  intro _
  exact alike.foldlM (alike.runCase version group.label) group.cases progress

theorem runProtocol (alike : Alike settings oracle other related) (corpus : Corpus)
    (summary : Summary) (version : Nat) :
    related (runProtocol settings oracle corpus summary version)
      (runProtocol settings other corpus summary version) := by
  refine alike.bind (alike.say _) fun _ => alike.bind (alike.say _) fun _ => ?_
  exact alike.bind (alike.foldlM (alike.runGroup version) corpus.groups _) fun _ =>
    alike.bind (alike.say _) fun _ => alike.pure _

/-- The relation holds of whole runs. -/
theorem runAll (alike : Alike settings oracle other related) (corpus : Corpus) :
    related (runAll settings oracle corpus) (runAll settings other corpus) := by
  refine alike.bind (alike.foldlM ?_ settings.protocols.versions _) fun _ =>
    alike.bind (alike.say _) fun _ => alike.bind (alike.say _) fun _ => alike.pure _
  exact alike.runProtocol corpus

end Alike

end Run

variable {σ τ α β : Type} {see : τ → σ}

/-- The bench with less of the state of its oracle. -/
def Bench.view (see : τ → σ) (bench : Bench τ) : Bench σ :=
  { bench with state := see bench.state }

namespace Run

/-- Two parts that do the same, one of them under an oracle with more state. -/
def Mirrors (see : τ → σ) (finer : RunM τ α) (coarser : RunM σ α) : Prop :=
  ∀ bench, coarser.run.run (bench.view see) =
    ((finer.run.run bench).1, (finer.run.run bench).2.view see)

private theorem mirrors_bind {finer : RunM τ α} {coarser : RunM σ α} {finerNext : α → RunM τ β}
    {next : α → RunM σ β} (first : Mirrors see finer coarser)
    (second : ∀ value, Mirrors see (finerNext value) (next value)) :
    Mirrors see (finer >>= finerNext) (coarser >>= next) := by
  intro bench
  rw [run_bind, run_bind, first bench]
  rcases finer.run.run bench with ⟨_ | value, middle⟩
  · rfl
  · exact second value middle

/-- An oracle that answers as another, and only keeps more. -/
def Extends (see : τ → σ) (finer : Oracle τ) (coarser : Oracle σ) : Prop :=
  ∀ streamPath reportPath (around : Surroundings τ),
    coarser.answer streamPath reportPath ⟨around.files, see around.state⟩ =
      ((finer.answer streamPath reportPath around).1,
        ⟨(finer.answer streamPath reportPath around).2.files,
          see (finer.answer streamPath reportPath around).2.state⟩)

private theorem Extends.alike {finer : Oracle τ} {coarser : Oracle σ}
    (more : Extends see finer coarser)
    (settings : Settings) : Alike settings finer coarser (Mirrors see) where
  pure _ _ := rfl
  bind := mirrors_bind
  say line bench := by
    rw [run_say, run_say]
    rfl
  handOver version case bench := by
    have files : (bench.view see).files = bench.files := rfl
    rw [run_handOver, run_handOver, files]
    rcases bench.files.writeStream case version settings.streamPath with _ | ⟨stream, files⟩
    · rfl
    · rfl
  ask bench := by
    have same := more settings.streamPath settings.reportPath ⟨bench.files, bench.state⟩
    rw [run_ask, run_ask]
    simp only [Bench.view, same]

/-- A run does not notice that its oracle keeps more. -/
theorem Extends.run_eq {finer : Oracle τ} {coarser : Oracle σ} (more : Extends see finer coarser)
    (settings : Settings) (corpus : Corpus) (bench : Bench τ) :
    PickleTrial.run settings coarser corpus (bench.view see) =
      ((PickleTrial.run settings finer corpus bench).1,
        (PickleTrial.run settings finer corpus bench).2.view see) := by
  have mirrored := (more.alike settings).runAll corpus bench
  rw [PickleTrial.run, PickleTrial.run, mirrored]
  rfl

end Run

end PickleTrial
