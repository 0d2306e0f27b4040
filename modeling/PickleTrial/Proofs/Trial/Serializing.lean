import PickleTrial.Proofs.Trial.Files
import PickleTrial.Proofs.Trial.Parts

/-! Streams that are handed over, whole or not at all. A stream is encoded before its file is
opened, so a value that cannot be encoded leaves the files as they are. Opening a file empties it,
so nothing of what was in it stays behind the stream; and where no file can be opened nothing has
been done yet. -/

namespace PickleTrial

/-! ## Step by step -/

namespace Files

/-- Open a file for writing. One that is there is emptied, and one that is not there is made. -/
def create (files : Files) (path : String) : Except FileError (Location × Files) := do
  let location ← files.locate path
  match files.entry? location with
  | some .directory => throw .isDirectory
  | _ => return (location, files.put location (.file []))

/-- Write bytes behind those that a file holds. -/
def append (files : Files) (location : Location) (bytes : Bytes) : Files :=
  match files.entry? location with
  | some (.file contents) => files.put location (.file (contents ++ bytes))
  | _ => files

/-- Encode the value of a case, open a file and write the stream to it, in as many runs of bytes as
it takes. -/
def serialize (cut : Bytes → List Bytes) (case : TrialCase) (version : Nat) (path : String) :
    ExceptT TrialError (StateM Files) Bytes := do
  match case.graph.pickle version case.root with
  | .error reason => throw (.encode case.render version reason)
  | .ok stream =>
      let files ← get
      match files.create path with
      | .error why => throw (.files path why)
      | .ok (location, files) =>
          set files
          (cut stream).forM fun run => modify (·.append location run)
          return stream

private theorem put_put (files : Files) (location : Location) (first second : FileEntry) :
    (files.put location first).put location second = files.put location second := by
  simp [put, List.filter_filter]

private theorem append_put (files : Files) {location : Location} (below : location ≠ [])
    (contents bytes : Bytes) :
    (files.put location (.file contents)).append location bytes =
      files.put location (.file (contents ++ bytes)) := by
  rw [append, put_here files below]
  exact put_put files location _ _

/-- Runs of bytes come to stand behind each other. -/
private theorem run_appendAll (files : Files) {location : Location} (below : location ≠ [])
    (contents : Bytes) (runs : List Bytes) :
    (runs.forM fun run => modify (·.append location run) :
        ExceptT TrialError (StateM Files) PUnit).run.run (files.put location (.file contents)) =
      (.ok PUnit.unit, files.put location (.file (contents ++ runs.flatten))) := by
  induction runs generalizing contents with
  | nil =>
      rw [List.flatten_nil, List.append_nil]
      rfl
  | cons run rest induction =>
      change (rest.forM fun run => modify (·.append location run) :
        ExceptT TrialError (StateM Files) PUnit).run.run
          ((files.put location (.file contents)).append location run) = _
      rw [append_put files below, induction, List.append_assoc, List.flatten_cons]

private theorem create_eq (files : Files) (path : String) :
    files.create path =
      (files.place path).map fun location => (location, files.put location (.file [])) := by
  rw [create, place]
  cases files.locate path with
  | error why => rfl
  | ok location =>
      dsimp only [bind, Except.bind]
      rcases files.entry? location with _ | _ | _ <;> rfl

/-- Step by step the same is done as at once. -/
private theorem run_serialize (cut : Bytes → List Bytes)
    (whole : ∀ stream, (cut stream).flatten = stream)
    (files : Files) (case : TrialCase) (version : Nat) (path : String) :
    (serialize cut case version path).run.run files =
      match files.writeStream case version path with
      | .ok (stream, after) => (.ok stream, after)
      | .error error => (.error error, files) := by
  rw [serialize, writeStream_eq]
  cases case.graph.pickle version case.root with
  | error reason => rfl
  | ok stream =>
      dsimp only
      rw [run_bind, run_get]
      dsimp only
      rw [create_eq, write_eq]
      cases placed : files.place path with
      | error why => rfl
      | ok location =>
          -- The file was emptied, so the runs stand behind nothing.
          have below := ne_nil_of_ne_directory (place_eq_ok.1 placed).2
          have kept := run_appendAll files below [] (cut stream)
          rw [whole, List.nil_append] at kept
          change ((_ : ExceptT TrialError (StateM Files) PUnit) >>= fun _ => pure stream).run.run
            (files.put location (.file [])) = _
          rw [run_bind, kept]
          rfl

end Files

/-! ## All or nothing -/

/-- There is room for a file at a path: the directories on the way are there, and nothing or a
file stands at its end. -/
inductive Files.HasRoom (files : Files) (path : String) : Prop
  | absent : files.find path = .ok none → HasRoom files path
  | file (contents : Bytes) : files.find path = .ok (some (.file contents)) → HasRoom files path

/-- How handing over the stream of a case comes out, by what stands at the path before. -/
structure HandedOver (files : Files) (case : TrialCase) (version : Nat) (path : String)
    (result : Except TrialError Bytes) (after : Files) : Prop where
  refused : ∀ reason, case.graph.pickle version case.root = .error reason →
    result = .error (.encode case.render version reason) ∧ after = files
  /-- The file holds the stream and nothing else, whatever it held before, and nothing else is
  changed. -/
  written : ∀ stream, case.graph.pickle version case.root = .ok stream → files.HasRoom path →
    result = .ok stream ∧ after.find path = .ok (some (.file stream)) ∧
      after.read path = .ok stream ∧ after.current = files.current ∧
      ∀ location, files.locate path ≠ .ok location → after.entry? location = files.entry? location
  /-- A directory on the way is missing, or is none. -/
  noWay : ∀ stream why, case.graph.pickle version case.root = .ok stream →
    files.find path = .error why → result = .error (.files path why) ∧ after = files
  occupied : ∀ stream, case.graph.pickle version case.root = .ok stream →
    files.find path = .ok (some .directory) →
      result = .error (.files path .isDirectory) ∧ after = files

namespace HandedOver

variable {files after : Files} {case : TrialCase} {version : Nat} {path : String} {stream : Bytes}

private theorem of_refused {reason : EncodeError}
    (refused : case.graph.pickle version case.root = .error reason) :
    HandedOver files case version path (.error (.encode case.render version reason)) files where
  refused other same := by
    cases refused.symm.trans same
    exact ⟨rfl, rfl⟩
  written _ encoded := by cases refused.symm.trans encoded
  noWay _ _ encoded := by cases refused.symm.trans encoded
  occupied _ encoded := by cases refused.symm.trans encoded

private theorem of_blocked {why : FileError}
    (encoded : case.graph.pickle version case.root = .ok stream)
    (blocked : files.place path = .error why) :
    HandedOver files case version path (.error (.files path why)) files where
  refused _ refused := by cases encoded.symm.trans refused
  written _ _ room := by
    rcases Files.place_eq_error.1 blocked with lost | ⟨directory, -⟩ <;> cases room <;> simp_all
  noWay _ _ _ lost := by
    rcases Files.place_eq_error.1 blocked with same | ⟨directory, -⟩
    · cases lost.symm.trans same
      exact ⟨rfl, rfl⟩
    · cases lost.symm.trans directory
  occupied _ _ directory := by
    rcases Files.place_eq_error.1 blocked with lost | ⟨-, rfl⟩
    · cases directory.symm.trans lost
    · exact ⟨rfl, rfl⟩

private theorem of_written {location : Location}
    (encoded : case.graph.pickle version case.root = .ok stream)
    (placed : files.place path = .ok location) :
    HandedOver files case version path (.ok stream) (files.put location (.file stream)) where
  refused _ refused := by cases encoded.symm.trans refused
  written other same _ := by
    cases encoded.symm.trans same
    have written : files.write path stream = .ok (files.put location (.file stream)) := by
      rw [Files.write_eq, placed]
      rfl
    refine ⟨rfl, Files.find_of_write written, Files.read_of_write written, rfl,
      fun elsewhere apart => Files.put_elsewhere files ?_ _⟩
    rintro rfl
    exact apart (Files.place_eq_ok.1 placed).1
  noWay _ why _ lost := by
    cases (Files.place_eq_error.2 (.inl lost)).symm.trans placed
  occupied _ _ directory := by
    cases (Files.place_eq_error.2 (.inr ⟨directory, rfl⟩)).symm.trans placed

end HandedOver

private theorem exists_handedOver (files : Files) (case : TrialCase) (version : Nat)
    (path : String) : ∃ result after, HandedOver files case version path result after ∧
      files.writeStream case version path = result.map fun stream => (stream, after) := by
  rw [Files.writeStream_eq]
  cases encoded : case.graph.pickle version case.root with
  | error reason => exact ⟨_, files, .of_refused encoded, rfl⟩
  | ok stream =>
      dsimp only
      rw [Files.write_eq]
      cases placed : files.place path with
      | error why => exact ⟨_, files, .of_blocked encoded placed, rfl⟩
      | ok location => exact ⟨_, _, .of_written encoded placed, rfl⟩

private theorem HandedOver.eq_of_error {files after : Files} {case : TrialCase} {version : Nat}
    {path : String} {error : TrialError}
    (handed : HandedOver files case version path (.error error) after) : after = files := by
  cases encoded : case.graph.pickle version case.root with
  | error reason => exact (handed.refused reason encoded).2
  | ok stream =>
      rcases found : files.find path with why | _ | _ | _
      · exact (handed.noWay stream why encoded found).2
      · cases (handed.written stream encoded (.absent found)).1
      · cases (handed.written stream encoded (.file _ found)).1
      · exact (handed.occupied stream encoded found).2

/-- The stream of a case is handed over whole or not at all: what cannot be encoded leaves the files
as they are, and so does a path with no room for a file; and where there is room, the file holds the
stream in the end. So it comes out within a run too, and step by step, in however many runs of bytes
the stream is written. -/
theorem handed_over_whole_or_not (files : Files) (case : TrialCase) (version : Nat)
    (path : String) :
    ∃ result after, HandedOver files case version path result after ∧
      files.writeStream case version path = (result.map fun stream => (stream, after)) ∧
      (∀ {σ : Type} (settings : Settings) (bench : Bench σ), settings.streamPath = path →
        bench.files = files →
          (Run.handOver settings version case).run.run bench =
            (result, { bench with files := after })) ∧
      ∀ cut : Bytes → List Bytes, (∀ stream, (cut stream).flatten = stream) →
        (Files.serialize cut case version path).run.run files = (result, after) := by
  rcases exists_handedOver files case version path with ⟨result, after, handed, written⟩
  refine ⟨result, after, handed, written, ?_, ?_⟩
  · rintro σ settings bench rfl rfl
    rw [Run.run_handOver, written]
    cases result with
    | ok stream => rfl
    | error error => rw [handed.eq_of_error]; rfl
  · intro cut whole
    rw [Files.run_serialize cut whole, written]
    cases result with
    | ok stream => rfl
    | error error => rw [handed.eq_of_error]; rfl

/-- A number in place of a longer file, written byte by byte, and at a protocol that there is not
the same file left as it is. -/
theorem handed_over_whole_or_not_overwrites :
    (∃ after, HandedOver ⟨[], [(["data"], .file (List.replicate 8 0))]⟩
          ⟨⟨#[.int 256]⟩, 0, "int", "256"⟩ 2 "data" (.ok [0x80, 0x02, 0x4d, 0x00, 0x01, 0x2e])
          after ∧
        after.read "data" = .ok [0x80, 0x02, 0x4d, 0x00, 0x01, 0x2e] ∧
        (Files.serialize (List.map ([·])) ⟨⟨#[.int 256]⟩, 0, "int", "256"⟩ 2 "data").run.run
            ⟨[], [(["data"], .file (List.replicate 8 0))]⟩ =
          (.ok [0x80, 0x02, 0x4d, 0x00, 0x01, 0x2e], after)) ∧
      (Files.serialize (List.map ([·])) ⟨⟨#[.int 256]⟩, 0, "int", "256"⟩ 9 "data").run.run
          ⟨[], [(["data"], .file (List.replicate 8 0))]⟩ =
        (.error (.encode "256" 9 (.unsupportedProtocol 9)),
          ⟨[], [(["data"], .file (List.replicate 8 0))]⟩) := by
  have whole : ∀ stream : Bytes, (stream.map ([·])).flatten = stream := by
    intro stream
    induction stream with
    | nil => rfl
    | cons byte rest induction => rw [List.map_cons, List.flatten_cons, induction]; rfl
  have there : Files.find ⟨[], [(["data"], .file (List.replicate 8 0))]⟩ "data" =
      .ok (some (.file (List.replicate 8 0))) := by decide +kernel
  have encoded : Graph.pickle ⟨#[.int 256]⟩ 2 0 = .ok [0x80, 0x02, 0x4d, 0x00, 0x01, 0x2e] := by
    decide +kernel
  have refused : Graph.pickle ⟨#[.int 256]⟩ 9 0 = .error (.unsupportedProtocol 9) := rfl
  have shown : TrialCase.render ⟨⟨#[.int 256]⟩, 0, "int", "256"⟩ = "256" := by decide +kernel
  constructor
  · rcases handed_over_whole_or_not ⟨[], [(["data"], .file (List.replicate 8 0))]⟩
      ⟨⟨#[.int 256]⟩, 0, "int", "256"⟩ 2 "data" with ⟨result, after, handed, -, -, steps⟩
    rcases handed.written _ encoded (.file _ there) with ⟨rfl, -, read, -⟩
    exact ⟨after, handed, read, steps _ whole⟩
  · rcases handed_over_whole_or_not ⟨[], [(["data"], .file (List.replicate 8 0))]⟩
      ⟨⟨#[.int 256]⟩, 0, "int", "256"⟩ 9 "data" with ⟨result, after, handed, -, -, steps⟩
    rcases handed.refused _ refused with ⟨rfl, rfl⟩
    rw [← shown]
    exact steps _ whole

end PickleTrial
