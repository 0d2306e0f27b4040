import PickleTrial.Trial.HandOff

/-! Files that are written and read. Writing a file changes what is at its own location only, so
the way to it stays what it was and the file is read back. -/

namespace PickleTrial.Files

private theorem lookup_filter_ne (entries : List (Location × FileEntry)) {key other : Location}
    (different : key ≠ other) :
    (entries.filter fun entry => entry.1 ≠ other).lookup key = entries.lookup key := by
  induction entries with
  | nil => rfl
  | cons head rest induction =>
      rcases head with ⟨headKey, value⟩
      by_cases removed : headKey = other
      · have missed : (key == headKey) = false := beq_eq_false_iff_ne.2 (removed ▸ different)
        rw [List.filter_cons_of_neg (by simp [removed]), induction, List.lookup_cons, missed]
      · rw [List.filter_cons_of_pos (by simpa using removed), List.lookup_cons, List.lookup_cons,
          induction]

private theorem lookup_filter_self (entries : List (Location × FileEntry)) (key : Location) :
    (entries.filter fun entry => entry.1 ≠ key).lookup key = none := by
  rw [List.lookup_eq_none_iff]
  intro entry member
  exact bne_iff_ne.2 (of_decide_eq_true (List.mem_filter.1 member).2).symm

/-- The root is a directory. -/
theorem ne_nil_of_ne_directory {files : Files} {location : Location}
    (noDirectory : files.entry? location ≠ some .directory) : location ≠ [] := by
  intro root
  subst root
  exact noDirectory rfl

theorem put_here (files : Files) {location : Location} (below : location ≠ [])
    (entry : FileEntry) : entry? (files.put location entry) location = some entry := by
  simp [put, entry?, below]

theorem put_elsewhere (files : Files) {location other : Location} (different : other ≠ location)
    (entry : FileEntry) : entry? (files.put location entry) other = files.entry? other := by
  unfold entry? put
  have missed : (other == location) = false := beq_eq_false_iff_ne.2 different
  rw [List.lookup_cons, missed, lookup_filter_ne files.entries different]

/-- Ways lead through directories, so a way that is found is found wherever these stand. -/
private theorem walk_of_directories {files others : Files}
    (kept : ∀ location, files.entry? location = some .directory →
      others.entry? location = some .directory)
    {here target : Location} {names : List String} (found : files.walk here names = .ok target) :
    others.walk here names = .ok target := by
  induction names generalizing here with
  | nil => exact found
  | cons name rest induction =>
      rw [walk] at found ⊢
      split at found
      · rename_i directory
        rw [kept _ directory]
        exact induction found
      · cases found
      · cases found

theorem locate_of_directories {files others : Files} (current : others.current = files.current)
    (kept : ∀ location, files.entry? location = some .directory →
      others.entry? location = some .directory)
    {path : String} {target : Location} (found : files.locate path = .ok target) :
    others.locate path = .ok target := by
  rw [locate, current]
  exact walk_of_directories kept found

private theorem locate_put (files : Files) {location target : Location} {path : String}
    (noDirectory : files.entry? location ≠ some .directory) (entry : FileEntry)
    (found : files.locate path = .ok target) :
    (files.put location entry).locate path = .ok target := by
  have current : (files.put location entry).current = files.current := rfl
  refine locate_of_directories current (fun other directory => ?_) found
  have elsewhere : other ≠ location := fun same => noDirectory (same ▸ directory)
  rw [put_elsewhere files elsewhere, directory]

/-- Where a file at a path comes to stand, if no directory stands there. -/
def place (files : Files) (path : String) : Except FileError Location :=
  match files.locate path with
  | .error why => .error why
  | .ok location =>
      if files.entry? location = some .directory then .error .isDirectory else .ok location

theorem place_eq_ok {files : Files} {path : String} {location : Location} :
    files.place path = .ok location ↔
      files.locate path = .ok location ∧ files.entry? location ≠ some .directory := by
  rw [place]
  cases files.locate path with
  | error why => simp
  | ok found =>
      by_cases directory : files.entry? found = some .directory
      · simp only [if_pos directory, Except.ok.injEq, reduceCtorEq, false_iff, not_and]
        rintro rfl
        exact not_not_intro directory
      · simp only [if_neg directory, Except.ok.injEq]
        exact ⟨fun same => ⟨same, same ▸ directory⟩, And.left⟩

theorem place_eq_error {files : Files} {path : String} {why : FileError} :
    files.place path = .error why ↔
      files.find path = .error why ∨
        files.find path = .ok (some .directory) ∧ why = .isDirectory := by
  rw [place, find]
  cases files.locate path with
  | error why => simp [bind, Except.bind]
  | ok location =>
      by_cases directory : files.entry? location = some .directory
      · simp [bind, Except.bind, pure, Except.pure, directory, eq_comm]
      · simp [bind, Except.bind, pure, Except.pure, directory]

theorem write_eq (files : Files) (path : String) (contents : Bytes) :
    files.write path contents =
      (files.place path).map fun location => files.put location (.file contents) := by
  rw [write, place]
  cases files.locate path with
  | error why => rfl
  | ok location =>
      dsimp only [bind, Except.bind]
      rcases files.entry? location with _ | _ | _ <;> rfl

/-- What writing a file does. -/
private theorem exists_of_write {files after : Files} {path : String} {contents : Bytes}
    (written : files.write path contents = .ok after) :
    ∃ location, files.locate path = .ok location ∧ files.entry? location ≠ some .directory ∧
      after = files.put location (.file contents) := by
  rw [write_eq] at written
  cases placed : files.place path with
  | error why =>
      rw [placed] at written
      cases written
  | ok location =>
      rw [placed] at written
      cases written
      rcases place_eq_ok.1 placed with ⟨located, noDirectory⟩
      exact ⟨location, located, noDirectory, rfl⟩

theorem find_eq_some {files : Files} {path : String} {entry : FileEntry} :
    files.find path = .ok (some entry) ↔
      ∃ location, files.locate path = .ok location ∧ files.entry? location = some entry := by
  rw [find]
  cases files.locate path with
  | error error => simp [bind, Except.bind]
  | ok location => simp [bind, Except.bind, pure, Except.pure]

theorem find_of_write {files after : Files} {path : String} {contents : Bytes}
    (written : files.write path contents = .ok after) :
    after.find path = .ok (some (.file contents)) := by
  rcases exists_of_write written with ⟨location, located, noDirectory, rfl⟩
  exact find_eq_some.2 ⟨location, locate_put files noDirectory _ located,
    put_here files (ne_nil_of_ne_directory noDirectory) _⟩

theorem read_eq_ok_iff {files : Files} {path : String} {contents : Bytes} :
    files.read path = .ok contents ↔ files.find path = .ok (some (.file contents)) := by
  rw [read]
  rcases files.find path with _ | _ | _ | _ <;> simp [bind, Except.bind, pure, Except.pure]

/-- A file that was written is read back. -/
theorem read_of_write {files after : Files} {path : String} {contents : Bytes}
    (written : files.write path contents = .ok after) : after.read path = .ok contents :=
  read_eq_ok_iff.2 (find_of_write written)

theorem writeStream_eq (files : Files) (case : TrialCase) (version : Nat) (path : String) :
    files.writeStream case version path =
      match case.graph.pickle version case.root with
      | .error reason => .error (.encode case.render version reason)
      | .ok stream =>
          match files.write path stream with
          | .error why => .error (.files path why)
          | .ok after => .ok (stream, after) := by
  rw [writeStream]
  cases case.graph.pickle version case.root with
  | error reason => rfl
  | ok stream =>
      change ((files.write path stream).mapError (TrialError.files path)).bind
        (fun after => .ok (stream, after)) = _
      dsimp only
      cases files.write path stream <;> rfl

/-- A stream that is handed over is that of the case, and is written. -/
theorem writeStream_eq_ok {files after : Files} {case : TrialCase} {version : Nat} {path : String}
    {stream : Bytes} (handed : files.writeStream case version path = .ok (stream, after)) :
    case.graph.pickle version case.root = .ok stream ∧ files.write path stream = .ok after := by
  rw [writeStream_eq] at handed
  split at handed
  · cases handed
  · split at handed
    · cases handed
    · cases handed
      exact ⟨‹_›, ‹_›⟩

/-- Why a stream is not handed over. -/
theorem writeStream_eq_error {files : Files} {case : TrialCase} {version : Nat} {path : String}
    {error : TrialError} (failed : files.writeStream case version path = .error error) :
    (∃ reason, case.graph.pickle version case.root = .error reason ∧
      error = .encode case.render version reason) ∨ ∃ reason, error = .files path reason := by
  rw [writeStream_eq] at failed
  split at failed
  · cases failed
    exact .inl ⟨_, ‹_›, rfl⟩
  · split at failed
    · cases failed
      exact .inr ⟨_, rfl⟩
    · cases failed

/-! ## Fewer files -/

/-- Whatever is there is among the others too. -/
structure Within (files others : Files) : Prop where
  current : files.current = others.current
  entries : ∀ location entry, files.entry? location = some entry →
    others.entry? location = some entry

namespace Within

variable {files others : Files} {path : String}

theorem refl (files : Files) : files.Within files :=
  ⟨rfl, fun _ _ => id⟩

theorem locate (within : files.Within others) {target : Location}
    (found : files.locate path = .ok target) : others.locate path = .ok target :=
  locate_of_directories within.current.symm (fun _ => within.entries _ _) found

end Within

theorem Within.find {files others : Files} {path : String} {entry : FileEntry}
    (within : files.Within others) (found : files.find path = .ok (some entry)) :
    others.find path = .ok (some entry) := by
  rcases find_eq_some.1 found with ⟨location, located, there⟩
  exact find_eq_some.2 ⟨location, within.locate located, within.entries _ _ there⟩

/-- The files without what is at a location. -/
def without (files : Files) (location : Location) : Files :=
  { files with entries := files.entries.filter fun other => other.1 ≠ location }

theorem without_here (files : Files) {location : Location} (below : location ≠ []) :
    entry? (files.without location) location = none := by
  unfold entry?
  rw [if_neg below]
  exact lookup_filter_self files.entries location

theorem without_elsewhere (files : Files) {location other : Location}
    (different : other ≠ location) :
    entry? (files.without location) other = files.entry? other := by
  unfold entry?
  split
  · rfl
  · exact lookup_filter_ne files.entries different

theorem within_without (files : Files) {location : Location} (below : location ≠ []) :
    (files.without location).Within files := by
  refine ⟨rfl, fun other entry there => ?_⟩
  by_cases same : other = location
  · rw [same, without_here files below] at there
    cases there
  · rwa [without_elsewhere files same] at there

/-- What removing a file does. -/
theorem exists_of_remove {files after : Files} {path : String}
    (removed : files.remove path = .ok after) :
    ∃ location contents, files.locate path = .ok location ∧
      files.entry? location = some (.file contents) ∧ after = files.without location := by
  rw [remove] at removed
  cases located : files.locate path with
  | error error => simp [located, bind, Except.bind] at removed
  | ok location =>
      simp only [located, bind, Except.bind] at removed
      split at removed
      · cases removed
        exact ⟨location, _, rfl, ‹_›, rfl⟩
      · cases removed
      · cases removed

/-- A file that is there can be removed. -/
theorem remove_of_find {files : Files} {path : String} {contents : Bytes}
    (found : files.find path = .ok (some (.file contents))) :
    ∃ after, files.remove path = .ok after := by
  rcases find_eq_some.1 found with ⟨location, located, there⟩
  rw [remove, located]
  simp only [bind, Except.bind, there]
  exact ⟨_, rfl⟩

theorem ne_nil_of_file {files : Files} {location : Location} {contents : Bytes}
    (there : files.entry? location = some (.file contents)) : location ≠ [] := by
  have noDirectory : files.entry? location ≠ some .directory := by simp [there]
  exact ne_nil_of_ne_directory noDirectory

/-! ## Files beside each other -/

private theorem names_append_stroke (first second name : List Char) :
    Location.names (first ++ '/' :: second) name =
      Location.names first name ++ Location.names second [] := by
  induction first generalizing name with
  | nil =>
      simp only [List.nil_append, Location.names]
      split <;> simp
  | cons head rest induction =>
      by_cases stroke : head = '/'
      · subst stroke
        simp only [List.cons_append, Location.names]
        split <;> simp [induction]
      · simp only [List.cons_append, Location.names, induction]

private theorem names_of_notMem {characters name : List Char} (noStroke : '/' ∉ characters)
    (nonempty : name.reverse ++ characters ≠ []) :
    Location.names characters name = [String.ofList (name.reverse ++ characters)] := by
  induction characters generalizing name with
  | nil =>
      have some : name ≠ [] := by simpa using nonempty
      rw [Location.names, if_neg some, List.append_nil]
  | cons head rest induction =>
      have parts := not_or.1 fun inside => noStroke (List.mem_cons.2 inside)
      have moved : (head :: name).reverse ++ rest = name.reverse ++ head :: rest := by simp
      rw [Location.names, induction parts.2 (moved ▸ nonempty), moved]
      exact parts.1 ∘ Eq.symm

/-- A name that a path may end in. -/
structure Plain (name : String) : Prop where
  nonempty : name.toList ≠ []
  noStroke : '/' ∉ name.toList
  noDots : name ≠ "." ∧ name ≠ ".."

theorem Plain.names {name : String} (plain : Plain name) :
    Location.names name.toList [] = [name] := by
  have names : Location.names name.toList [] = _ := names_of_notMem plain.noStroke plain.nonempty
  rwa [List.reverse_nil, List.nil_append, String.ofList_toList] at names

/-- Paths that differ in their last name only start alike and lead through the same directories. -/
private theorem exists_joinPath (base : String) : ∃ (absolute : Prop) (before : List String),
    ∀ name, Plain name → ((joinPath base name).toList.head? = some '/' ↔ absolute) ∧
      Location.names (joinPath base name).toList [] = before ++ [name] := by
  by_cases empty : base = ""
  · refine ⟨False, [], fun name plain => ?_⟩
    rw [joinPath, if_pos empty]
    refine ⟨iff_false_intro fun begins => plain.noStroke (List.mem_of_mem_head? begins), ?_⟩
    exact plain.names
  have nonempty : base.toList ≠ [] := fun none => empty (String.toList_eq_nil_iff.1 none)
  have headed (more : List Char) : (base.toList ++ more).head? = base.toList.head? := by
    rw [List.head?_append, List.head?_eq_some_head nonempty, Option.some_or]
  refine ⟨base.toList.head? = some '/', ?_⟩
  by_cases ends : base.toList.getLast? = some '/'
  · rcases List.getLast?_eq_some_iff.1 ends with ⟨start, split⟩
    refine ⟨Location.names start [], fun name plain => ?_⟩
    rw [joinPath, if_neg empty, if_pos ends, String.toList_append, headed, split,
      List.append_assoc, List.singleton_append, names_append_stroke, plain.names]
    exact ⟨Iff.rfl, rfl⟩
  · refine ⟨Location.names base.toList [], fun name plain => ?_⟩
    have stroke : "/".toList ++ name.toList = '/' :: name.toList := rfl
    rw [joinPath, if_neg empty, if_neg ends, String.toList_append, String.toList_append,
      List.append_assoc, headed, stroke, names_append_stroke, plain.names]
    exact ⟨Iff.rfl, rfl⟩

private theorem walk_concat {files : Files} {here target : Location} {names : List String}
    {name : String} : files.walk here (names ++ [name]) = .ok target ↔
      ∃ parent, files.walk here names = .ok parent ∧ files.entry? parent = some .directory ∧
        target = parent.step name := by
  induction names generalizing here with
  | nil =>
      simp only [List.nil_append, walk]
      cases there : files.entry? here with
      | none => simp [there]
      | some entry => cases entry <;> simp [there, eq_comm]
  | cons head rest induction =>
      simp only [List.cons_append, walk]
      split
      · exact induction
      · simp
      · simp

private theorem Plain.step {name : String} (plain : Plain name) (parent : Location) :
    parent.step name = parent ++ [name] := by
  rw [Location.step, if_neg plain.noDots.1, if_neg plain.noDots.2]

/-- Where there is a place for a file there is a place beside it. -/
private theorem exists_locate_beside {files : Files} {base first : String} {location : Location}
    (plain : Plain first) (located : files.locate (joinPath base first) = .ok location) :
    ∃ parent, location = parent ++ [first] ∧
      ∀ second, Plain second → files.locate (joinPath base second) = .ok (parent ++ [second]) := by
  rcases exists_joinPath base with ⟨absolute, before, parts⟩
  rw [locate, (parts first plain).2] at located
  rcases walk_concat.1 located with ⟨parent, walked, directory, rfl⟩
  refine ⟨parent, plain.step parent, fun second plainSecond => ?_⟩
  have alike := (parts second plainSecond).1.trans (parts first plain).1.symm
  rw [locate, (parts second plainSecond).2]
  refine walk_concat.2 ⟨parent, ?_, directory, (plainSecond.step parent).symm⟩
  simp only [alike]
  exact walked

/-- Writing a file leaves the files beside it as they are. -/
theorem read_beside {files after : Files} {base first second : String} {contents : Bytes}
    (plainFirst : Plain first) (plainSecond : Plain second) (different : second ≠ first)
    (written : files.write (joinPath base first) contents = .ok after) :
    after.read (joinPath base second) = files.read (joinPath base second) := by
  rcases exists_of_write written with ⟨location, located, noDirectory, rfl⟩
  rcases exists_locate_beside plainFirst located with ⟨parent, rfl, beside⟩
  have elsewhere : parent ++ [second] ≠ parent ++ [first] := fun same =>
    different (List.singleton_inj.1 (List.append_cancel_left same))
  have locatedSecond := beside second plainSecond
  rw [read, read, find, find, locatedSecond, locate_put files noDirectory _ locatedSecond]
  simp only [bind, Except.bind, put_elsewhere files elsewhere]

end PickleTrial.Files
