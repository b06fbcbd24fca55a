import FlatDecls.Proofs.CommandLine.Effects
import FlatDecls.Proofs.Files.Spelling

/-!
# The nearest manifest

The search for a manifest goes through the directories above a path, as the path's text names them,
and takes the first regular file of the manifest's name. It ends because parents are shorter. What
is found is the project or the failure: a manifest that cannot be read or is not valid is not passed
over for one further up (`Project.discover_nearest`).
-/

namespace FlatDecls

/-! ### The way up -/

namespace Path

variable {p q : Path}

/-- The path so many parents above, if there are as many. -/
def above? (p : Path) : Nat → Option Path
  | 0 => some p
  | n + 1 => (p.above? n).bind parent

/-- Going up from a path is going up from its parent, one level less. -/
theorem above?_of_parent (h : p.parent = some q) (n : Nat) : p.above? (n + 1) = q.above? n := by
  induction n with
  | zero => exact h
  | succ n ih =>
    rw [above?, ih]
    rfl

theorem above?_of_parent_eq_none (h : p.parent = none) (n : Nat) : p.above? (n + 1) = none := by
  induction n with
  | zero => exact h
  | succ n ih =>
    rw [above?, ih]
    rfl

/-- The ancestors of a path are itself and its parents in their order. -/
theorem getElem?_ancestors (p : Path) (n : Nat) : p.ancestors[n]? = p.above? n := by
  fun_induction ancestors p generalizing n with
  | case1 p last =>
    cases n with
    | zero => rfl
    | succ n => rw [above?_of_parent_eq_none last]; rfl
  | case2 p q parent shorter ih =>
    cases n with
    | zero => rfl
    | succ n => rw [above?_of_parent parent, List.getElem?_cons_succ, ih]

/-- The way up ends. -/
theorem exists_above?_eq_none (p : Path) : ∃ n, p.above? n = none :=
  ⟨p.ancestors.length, by rw [← getElem?_ancestors, List.getElem?_eq_none (Nat.le_refl _)]⟩

end Path

/-! ### Regular files -/

/-- The path leads to a regular file. -/
def Machine.NamesFile (m : Machine) (p : Path) : Prop :=
  ∃ loc, m.files.Reaches m.workingDirectory p loc ∧ m.files.HasFile loc

namespace Machine

variable {m : Machine} {p : Path}

theorem isFile_iff : m.files.isFile m.workingDirectory p = true ↔ m.NamesFile p := by
  rw [FileSystem.isFile_eq, Option.isSome_iff_exists, NamesFile]
  simp only [FileSystem.fileOf_eq_some_iff]

/-- A path that names a file has a parent, since neither a root nor the empty path is a file. -/
theorem exists_parent_of_namesFile (h : m.NamesFile p) : ∃ q, p.parent = some q := by
  rw [← isFile_iff, FileSystem.isFile_eq] at h
  exact Path.exists_parent (FileSystem.components_ne_nil_of_fileOf h)

end Machine

namespace Project

variable {m : Machine} {start first d : Path}

/-- The search from a path begins in the parent of a regular file, and otherwise in the path. -/
structure BeginsAt (m : Machine) (start first : Path) : Prop where
  file : m.NamesFile start → start.parent = some first
  other : ¬ m.NamesFile start → first = start

/-- On the way up from `first`, the manifest's name is that of a regular file in the directory `d`
and in none before. -/
def Nearest (m : Machine) (first d : Path) : Prop :=
  ∃ i, first.above? i = some d ∧ m.NamesFile (d.join manifestName) ∧
    ∀ j < i, ∀ e, first.above? j = some e → ¬ m.NamesFile (e.join manifestName)

/-- The project is that of this manifest in this directory, from which its paths are seen. -/
structure LiesIn (project : Project) (d : Path) (manifest : Manifest) : Prop where
  manifestPath : project.manifestPath = d.join manifestName
  contents : project.manifest = manifest
  rootDirectory : project.rootDirectory.WrittenAlike d
  inputPath : d.SeenFrom manifest.input project.inputPath
  noOutput : manifest.output = none → project.outputPath = none
  outputPath : ∀ output, manifest.output = some output →
    ∃ path, project.outputPath = some path ∧ d.SeenFrom output path

/-- What becomes of the manifest in the directory `d`. -/
structure Answers (m : Machine) (d : Path) (answer : Except ProjectError (Option Project)) :
    Prop where
  unreadable : ∀ e, m.files.readText m.workingDirectory (d.join manifestName) = .error e →
    answer = .error ⟨d.join manifestName, .unreadable e⟩
  invalid : ∀ content e, m.files.readText m.workingDirectory (d.join manifestName) = .ok content →
    Manifest.ofText content = .error e → answer = .error ⟨d.join manifestName, .invalid e⟩
  valid : ∀ content manifest,
    m.files.readText m.workingDirectory (d.join manifestName) = .ok content →
      Manifest.ofText content = .ok manifest →
        ∃ project : Project, answer = .ok (some project) ∧ project.LiesIn d manifest

/-! ### The search -/

/-- The search begins in one directory. -/
theorem BeginsAt.unique {other : Path} (h : BeginsAt m start first) (h' : BeginsAt m start other) :
    first = other := by
  by_cases file : m.NamesFile start
  · exact Option.some.inj ((h.file file).symm.trans (h'.file file))
  · exact (h.other file).trans (h'.other file).symm

/-- There is always a directory to begin in: the path itself, or its parent, or the path for want of
one. -/
theorem exists_beginsAt (m : Machine) (start : Path) :
    ∃ first, BeginsAt m start first ∧
      (searchStart start : StateM Machine Path).run m = (first, m) := by
  have run : (searchStart start : StateM Machine Path).run m =
      (if m.files.isFile m.workingDirectory start then start.parent.getD start else start, m) := by
    rw [searchStart, (ReadOnly.isFile start).run_bind]
    have asked : ((FileAccess.isFile start : StateM Machine Bool).run m).1 =
        m.files.isFile m.workingDirectory start := rfl
    rw [asked]
    cases m.files.isFile m.workingDirectory start <;> rfl
  rw [run]
  by_cases file : m.NamesFile start
  · obtain ⟨parent, up⟩ := Machine.exists_parent_of_namesFile file
    rw [if_pos (Machine.isFile_iff.2 file), up]
    exact ⟨parent, ⟨fun _ ↦ up, fun other ↦ absurd file other⟩, rfl⟩
  · rw [if_neg (mt Machine.isFile_iff.1 file)]
    exact ⟨start, ⟨fun is ↦ absurd is file, fun _ ↦ rfl⟩, rfl⟩

/-- Of several directories the first with a manifest wins. Looking for it changes nothing. -/
theorem run_firstManifest (directories : List Path) (m : Machine) :
    (firstManifest directories : StateM Machine (Option Path)).run m =
      ((directories.find? fun d ↦ m.files.isFile m.workingDirectory (d.join manifestName)).map
        (·.join manifestName), m) := by
  induction directories with
  | nil => rfl
  | cons d rest ih =>
    rw [firstManifest, (ReadOnly.isFile _).run_bind, List.find?_cons]
    have asked : ((FileAccess.isFile (d.join manifestName) : StateM Machine Bool).run m).1 =
        m.files.isFile m.workingDirectory (d.join manifestName) := rfl
    rw [asked]
    cases m.files.isFile m.workingDirectory (d.join manifestName) with
    | true => rfl
    | false => exact ih

/-- The directory that the search finds is the nearest one. -/
theorem find?_ancestors_eq_some_iff :
    (first.ancestors.find? fun d ↦ m.files.isFile m.workingDirectory (d.join manifestName)) =
      some d ↔ Nearest m first d := by
  rw [List.find?_eq_some_iff_getElem, Machine.isFile_iff, Nearest]
  simp only [← Path.getElem?_ancestors, List.getElem?_eq_some_iff, ← Machine.isFile_iff]
  constructor
  · rintro ⟨file, i, bound, here, before⟩
    refine ⟨i, ⟨bound, here⟩, file, fun j earlier e ⟨_, there⟩ ↦ ?_⟩
    simpa [there] using before j earlier
  · rintro ⟨i, ⟨bound, here⟩, file, before⟩
    refine ⟨file, i, bound, here, fun j earlier ↦ ?_⟩
    simpa using before j earlier _ ⟨by omega, rfl⟩

/-- Nothing is found among the ancestors exactly if no level has a manifest. -/
theorem find?_ancestors_eq_none_iff :
    (first.ancestors.find? fun d ↦ m.files.isFile m.workingDirectory (d.join manifestName)) =
      none ↔ ∀ i d, first.above? i = some d → ¬ m.NamesFile (d.join manifestName) := by
  simp only [List.find?_eq_none, List.mem_iff_getElem?, Path.getElem?_ancestors,
    Machine.isFile_iff]
  exact ⟨fun none i d here ↦ none d ⟨i, here⟩, fun none d ⟨i, here⟩ ↦ none i d here⟩

/-! ### Loading -/

/-- The project of a manifest that has been read. -/
def ofManifest (path : Path) (manifest : Manifest) : Project :=
  ⟨path, path.parent.getD ⟨""⟩, manifest⟩

/-- What the file at a path gives. -/
def ofFile (m : Machine) (path : Path) : Except ProjectError Project :=
  match m.files.readText m.workingDirectory path with
  | .error e => .error ⟨path, .unreadable e⟩
  | .ok content =>
    match Manifest.ofText content with
    | .error e => .error ⟨path, .invalid e⟩
    | .ok manifest => .ok (ofManifest path manifest)

/-- Loading a project reads the machine and leaves it as it is. -/
theorem run_load (path : Path) (m : Machine) :
    (load path : StateM Machine _).run m = (ofFile m path, m) := by
  rw [load, (ReadOnly.readText path).run_bind, ofFile]
  have asked : ((FileAccess.readText path : StateM Machine _).run m).1 =
      m.files.readText m.workingDirectory path := rfl
  rw [asked]
  cases m.files.readText m.workingDirectory path with
  | error e => rfl
  | ok content =>
    cases read : Manifest.ofText content <;> simp only [read] <;> rfl

/-- The paths of a project are resolved against the directory of its manifest. -/
theorem liesIn_ofManifest (d : Path) (manifest : Manifest) :
    (ofManifest (d.join manifestName) manifest).LiesIn d manifest := by
  have single : (d.join manifestName).components = d.components ++ ["flatgen.toml"] :=
    Path.components_join (q := manifestName) rfl
  obtain ⟨root, up⟩ := Path.exists_parent (p := d.join manifestName) (by simp [single])
  have alike : root.WrittenAlike d := Path.writtenAlike_parent_join rfl rfl up
  have rooted : (ofManifest (d.join manifestName) manifest).rootDirectory = root := by
    rw [ofManifest, up]
    rfl
  refine ⟨rfl, rfl, rooted ▸ alike, ?_, fun none ↦ ?_, fun output some ↦ ?_⟩
  · rw [inputPath, rooted]
    exact alike.seenFrom_join manifest.input
  · rw [outputPath]
    exact congrArg (Option.map _) none
  · rw [outputPath, rooted]
    exact ⟨_, congrArg (Option.map _) some, alike.seenFrom_join output⟩

/-- What a manifest's file says is the answer, be it a project or an error. -/
theorem answers_ofFile (m : Machine) (d : Path) :
    Answers m d ((ofFile m (d.join manifestName)).map some) := by
  constructor
  · intro e unreadable
    rw [ofFile, unreadable]
    rfl
  · intro content e readable invalid
    simp only [ofFile, readable, invalid]
    rfl
  · intro content manifest readable valid
    simp only [ofFile, readable, valid]
    exact ⟨_, rfl, liesIn_ofManifest d manifest⟩

/-! ### Discovery -/

/-- The search goes through the ancestors of the directory that it begins in. -/
theorem run_findManifest (m : Machine) (start : Path) :
    ∃ first, BeginsAt m start first ∧ (findManifest start : StateM Machine _).run m =
      ((first.ancestors.find? fun d ↦
        m.files.isFile m.workingDirectory (d.join manifestName)).map (·.join manifestName), m) := by
  obtain ⟨first, begins, run⟩ := exists_beginsAt m start
  refine ⟨first, begins, ?_⟩
  rw [findManifest, StateT.run_bind, run]
  exact run_firstManifest _ _

/-- What it finds is the manifest of the nearest directory with one. -/
theorem findManifest_eq_some_iff {path : Path} :
    ((findManifest start : StateM Machine _).run m).1 = some path ↔
      ∃ first d, BeginsAt m start first ∧ Nearest m first d ∧ path = d.join manifestName := by
  obtain ⟨first, begins, run⟩ := run_findManifest m start
  simp only [run, Option.map_eq_some_iff, find?_ancestors_eq_some_iff, eq_comm (b := path)]
  constructor
  · rintro ⟨d, nearest, here⟩
    exact ⟨first, d, begins, nearest, here⟩
  · rintro ⟨other, d, begins', nearest, here⟩
    obtain rfl := begins.unique begins'
    exact ⟨d, nearest, here⟩

/-- Discovery loads what the search finds, and an error there is final. -/
theorem run_discover (m : Machine) (start : Path) :
    (discover start : StateM Machine _).run m =
      (match ((findManifest start : StateM Machine _).run m).1 with
        | none => .ok none
        | some path => (ofFile m path).map some, m) := by
  rw [discover, (readOnly_findManifest start).run_bind]
  cases ((findManifest start : StateM Machine _).run m).1 with
  | none => rfl
  | some path =>
    have loaded := congrArg (fun done : Except ProjectError Project × Machine ↦
      (Option.some <$> done.1, done.2)) (run_load path m)
    exact loaded

/-- The search begins in the directory of a file and otherwise in the path itself, and goes up until
there is no parent. It finds the manifest in the first directory on this way in which the name is
that of a regular file, and nothing if there is no such directory. What is found is the answer: an
error if it cannot be read or is not valid, and otherwise the project in that directory. -/
theorem discover_nearest (m : Machine) (start : Path) :
    ∃ first, BeginsAt m start first ∧ (∃ n, first.above? n = none) ∧
      (∀ path, ((findManifest start : StateM Machine _).run m).1 = some path ↔
        ∃ d, Nearest m first d ∧ path = d.join manifestName) ∧
      (((findManifest start : StateM Machine _).run m).1 = none ↔
        ∀ i d, first.above? i = some d → ¬ m.NamesFile (d.join manifestName)) ∧
      (((discover start : StateM Machine _).run m).1 = .ok none ↔
        ∀ i d, first.above? i = some d → ¬ m.NamesFile (d.join manifestName)) ∧
      ∀ d, Nearest m first d → Answers m d ((discover start : StateM Machine _).run m).1 := by
  obtain ⟨first, begins, run⟩ := run_findManifest m start
  refine ⟨first, begins, first.exists_above?_eq_none, fun path ↦ ?_, ?_, ?_, fun d nearest ↦ ?_⟩
  · simp only [run, Option.map_eq_some_iff, find?_ancestors_eq_some_iff, eq_comm (a := path)]
  · simp only [run, Option.map_eq_none_iff, find?_ancestors_eq_none_iff]
  · rw [← find?_ancestors_eq_none_iff, run_discover, run]
    cases first.ancestors.find? fun d ↦
        m.files.isFile m.workingDirectory (d.join manifestName) with
    | none => simp
    | some d => cases found : ofFile m (d.join manifestName) <;> simp [found, Except.map]
  · rw [run_discover, run, find?_ancestors_eq_some_iff.2 nearest]
    exact answers_ofFile m d

end Project

end FlatDecls
