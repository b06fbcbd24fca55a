import FlatDecls.Proofs.CommandLine.Blind
import FlatDecls.Proofs.Discovery.Nearest
import FlatDecls.Proofs.Manifest.Entries

/-!
# Where settings come from

A run consults at most one manifest (`Options.Consults`): the one that an option names, and
otherwise the nearest one. It has settings unless this manifest is not there or not valid, or there
is neither a manifest nor an input, and then each setting comes from the options if they have it,
else from the manifest, else it is the default (`Options.Chooses`). So if the options have all
settings, what the manifests say does not show in the run (`Options.settings_override`).
-/

namespace FlatDecls

/-! ### Manifests and their directories -/

namespace Machine

variable {m : Machine} {path : Path} {manifest : Manifest}

/-- The path leads to a file that holds this manifest. -/
def HoldsManifest (m : Machine) (path : Path) (manifest : Manifest) : Prop :=
  ∃ content, m.files.readText m.workingDirectory path = .ok content ∧
    Manifest.ofText content = .ok manifest

/-- Paths that are joined to `root` are seen from the directory of the file that the other path
leads to: absolute ones stay as they are, and others, if the system looks at them at all, lead where
they lead from that directory. -/
structure SeesFromBeside (m : Machine) (path root : Path) : Prop where
  absolute : ∀ q : Path, q.isAbsolute = true → root.join q = q
  relative : ∀ loc, m.files.Reaches m.workingDirectory path loc →
    ∀ q : Path, q.isAbsolute = false → (root.join q).refused? = none → ∀ goal,
      m.files.Reaches m.workingDirectory (root.join q) goal ↔
        m.files.Leads loc.dropLast q.segments goal

/-- The path of a manifest names a file, so it has a parent, and what is beside the manifest is seen
from there. -/
theorem HoldsManifest.exists_root (h : m.HoldsManifest path manifest) :
    ∃ root, path.parent = some root ∧ m.SeesFromBeside path root := by
  obtain ⟨content, readable, -⟩ := h
  obtain ⟨loc, file⟩ := FileSystem.exists_fileOf_of_readText readable
  have some : path.components ≠ [] := FileSystem.components_ne_nil_of_fileOf (by rw [file]; rfl)
  obtain ⟨root, up⟩ := Path.exists_parent some
  refine ⟨root, up, fun q ↦ Path.join_of_isAbsolute, ?_⟩
  intro other reaches q relative accepted goal
  obtain rfl : loc = other := (FileSystem.fileOf_eq_some_iff.1 file).1.unique reaches
  exact FileSystem.reaches_join_iff file up relative accepted

end Machine

/-- A manifest's file gives a project if a manifest is written in it. -/
theorem Project.ofFile_eq_ok_iff {m : Machine} {path : Path} {project : Project} :
    ofFile m path = .ok project ↔
      ∃ manifest, m.HoldsManifest path manifest ∧ project = ofManifest path manifest := by
  rw [ofFile]
  constructor
  · intro h
    split at h
    · cases h
    next content readable =>
      split at h
      · cases h
      next manifest valid =>
        exact ⟨manifest, ⟨content, readable, valid⟩, (Except.ok.inj h).symm⟩
  · rintro ⟨manifest, ⟨content, readable, valid⟩, rfl⟩
    simp only [readable, valid]

namespace CommandLine

variable {o : Options} {m : Machine} {path : Path}

/-! ### The manifest of a run -/

/-- The manifest that a run consults is the one that an option names, and otherwise the nearest one
to the input or, if no option names the input either, to the working directory. -/
inductive Options.Consults (o : Options) (m : Machine) (path : Path) : Prop
  | named (h : o.manifest = some path)
  | found (unnamed : o.manifest = none) {first d : Path}
      (begins : Project.BeginsAt m (o.input.getD m.workingDirectory.path) first)
      (nearest : Project.Nearest m first d) (here : path = d.join Project.manifestName)

/-- The manifest that is consulted, if any. -/
def Options.consulted? (o : Options) (m : Machine) : Option Path :=
  o.manifest.or ((Project.findManifest (o.input.getD m.workingDirectory.path) :
    StateM Machine _).run m).1

/-- The manifest that the options lead to is the one that the run reads. -/
theorem Options.consults_iff : o.Consults m path ↔ o.consulted? m = some path := by
  rw [consulted?]
  constructor
  · intro h
    cases h with
    | named named => rw [named, Option.some_or]
    | found unnamed begins nearest here =>
      rw [unnamed, Option.none_or]
      exact Project.findManifest_eq_some_iff.2 ⟨_, _, begins, nearest, here⟩
  · intro h
    cases named : o.manifest with
    | some other =>
      rw [named, Option.some_or] at h
      exact .named (named.trans h)
    | none =>
      rw [named, Option.none_or] at h
      obtain ⟨first, d, begins, nearest, here⟩ := Project.findManifest_eq_some_iff.1 h
      exact .found named begins nearest here

/-- A run looks for its project once and changes nothing by it. A manifest that is not there is no
failure unless it was named. -/
theorem Options.run_project (o : Options) (m : Machine) :
    (o.project : StateM Machine _).run m =
      (match o.consulted? m with
        | none => .ok none
        | some path => (Project.ofFile m path).map some, m) := by
  rw [project, consulted?]
  cases o.manifest with
  | some path =>
    have loaded := congrArg (fun done : Except ProjectError Project × Machine ↦
      (Option.some <$> done.1, done.2)) (Project.run_load path m)
    exact loaded
  | none =>
    rw [Option.none_or]
    cases o.input with
    | some input => exact Project.run_discover m input
    | none =>
      simp only [Option.getD_none]
      rw [ReadOnly.workingDirectory.run_bind]
      exact Project.run_discover m m.workingDirectory.path

/-! ### Choosing -/

/-- Each setting is that of the options, else that of the manifest that is consulted, else, if there
is no manifest, the default. -/
structure Options.Chooses (o : Options) (m : Machine) (s : Settings) : Prop where
  input : ∀ path, o.input = some path → s.input = path
  output : ∀ path, o.output = some path → s.output = some path
  emit : ∀ format, o.emit = some format → s.emit = format
  manifest : ∀ path manifest, o.Consults m path → m.HoldsManifest path manifest →
    ∃ root, path.parent = some root ∧ m.SeesFromBeside path root ∧
      (o.input = none → s.input = root.join manifest.input) ∧
      (o.output = none → s.output = manifest.output.map root.join) ∧
      (o.emit = none → s.emit = manifest.emit)
  default : (∀ path, ¬ o.Consults m path) →
    (o.output = none → s.output = none) ∧ (o.emit = none → s.emit = .listing)

variable {s : Settings} {project : Option Project}

/-- Each setting is the option if it is given, else the manifest's, else the default. Only the input
must come from somewhere. -/
theorem Options.merge_eq_ok_iff : o.merge project = .ok s ↔
    o.input.or (project.map (·.inputPath)) = some s.input ∧
      s.output = o.output.or (project.bind (·.outputPath)) ∧
      s.emit = (o.emit.or (project.map (·.manifest.emit))).getD .listing := by
  obtain ⟨input, output, emit⟩ := s
  rw [merge]
  cases o.input.or (project.map (·.inputPath)) with
  | none => simp
  | some path => simp [eq_comm]

theorem Options.run_resolve (o : Options) (m : Machine) :
    ((o.resolve : StateM Machine _).run m).1 =
      match o.consulted? m with
      | none => o.merge none
      | some path =>
        match Project.ofFile m path with
        | .error e => .error (.project e)
        | .ok project => o.merge (some project) := by
  rw [resolve, StateT.run_bind, run_project]
  cases o.consulted? m with
  | none => rfl
  | some path => cases loaded : Project.ofFile m path <;> simp [loaded, Except.map] <;> rfl

/-- There are no settings exactly if the manifest that is consulted is not there or not valid, or if
there is none and the options do not name the input. -/
theorem Options.resolve_fails_iff (o : Options) (m : Machine) :
    (∃ e, ((o.resolve : StateM Machine _).run m).1 = .error e) ↔
      (∃ path, o.Consults m path ∧ ∀ manifest, ¬ m.HoldsManifest path manifest) ∨
        o.input = none ∧ ∀ path, ¬ o.Consults m path := by
  simp only [run_resolve, consults_iff]
  cases consulted : o.consulted? m with
  | none =>
    cases input : o.input <;> simp [merge, input]
  | some path =>
    cases loaded : Project.ofFile m path with
    | error e =>
      have none (manifest : Manifest) : ¬ m.HoldsManifest path manifest := by
        intro holds
        cases loaded.symm.trans (Project.ofFile_eq_ok_iff.2 ⟨manifest, holds, rfl⟩)
      simp [loaded, none]
    | ok project =>
      obtain ⟨manifest, holds, -⟩ := Project.ofFile_eq_ok_iff.1 loaded
      have settings : ∃ s, o.merge (some project) = .ok s := by
        rw [merge]
        cases o.input with
        | none => exact ⟨_, rfl⟩
        | some input => exact ⟨_, rfl⟩
      obtain ⟨s, settings⟩ := settings
      simp only [loaded, settings]
      constructor
      · rintro ⟨e, ⟨⟩⟩
      · rintro (⟨_, ⟨⟩, missing⟩ | ⟨-, none⟩)
        · exact absurd holds (missing manifest)
        · exact absurd rfl (none path)

/-- What the options name is taken from them, whatever the project is. -/
theorem Options.given_of_merge (h : o.merge project = .ok s) :
    (∀ path, o.input = some path → s.input = path) ∧
      (∀ path, o.output = some path → s.output = some path) ∧
      ∀ format, o.emit = some format → s.emit = format := by
  obtain ⟨input, output, emit⟩ := merge_eq_ok_iff.1 h
  refine ⟨fun path given ↦ ?_, fun path given ↦ ?_, fun format given ↦ ?_⟩
  · rw [given, Option.some_or] at input
    exact (Option.some.inj input).symm
  · rw [output, given, Option.some_or]
  · rw [emit, given, Option.some_or, Option.getD_some]

/-- Settings that are resolved are those that the options choose. -/
theorem Options.chooses_of_resolve (h : ((o.resolve : StateM Machine _).run m).1 = .ok s) :
    o.Chooses m s := by
  rw [run_resolve] at h
  cases consulted : o.consulted? m with
  | none =>
    simp only [consulted] at h
    obtain ⟨input, output, emit⟩ := given_of_merge h
    obtain ⟨-, chosenOutput, chosenEmit⟩ := merge_eq_ok_iff.1 h
    refine ⟨input, output, emit, fun path manifest consults ↦ ?_, fun _ ↦ ⟨?_, ?_⟩⟩
    · cases consulted.symm.trans (consults_iff.1 consults)
    · intro none
      rw [chosenOutput, none]
      rfl
    · intro none
      rw [chosenEmit, none]
      rfl
  | some path =>
    cases loaded : Project.ofFile m path with
    | error e => simp [consulted, loaded] at h
    | ok project =>
      simp only [consulted, loaded] at h
      obtain ⟨input, output, emit⟩ := given_of_merge h
      obtain ⟨chosenInput, chosenOutput, chosenEmit⟩ := merge_eq_ok_iff.1 h
      refine ⟨input, output, emit, fun path' manifest consults holds ↦ ?_, fun none ↦ ?_⟩
      · obtain rfl : path = path' :=
          Option.some.inj (consulted.symm.trans (consults_iff.1 consults))
        obtain rfl : project = .ofManifest path manifest :=
          Except.ok.inj (loaded.symm.trans (Project.ofFile_eq_ok_iff.2 ⟨manifest, holds, rfl⟩))
        obtain ⟨root, up, sees⟩ := holds.exists_root
        have rooted : (Project.ofManifest path manifest).rootDirectory = root := by
          rw [Project.ofManifest, up]
          rfl
        refine ⟨root, up, sees, fun none ↦ ?_, fun none ↦ ?_, fun none ↦ ?_⟩
        · rw [none, Option.none_or, Option.map_some, Project.inputPath, rooted] at chosenInput
          exact (Option.some.inj chosenInput).symm
        · rw [chosenOutput, none, Option.none_or, Option.bind_some, Project.outputPath, rooted]
          rfl
        · rw [chosenEmit, none]
          rfl
      · exact absurd (consults_iff.2 consulted) (none path)

/-! ### What manifests say -/

end CommandLine

/-- At the location is a file that holds a manifest. -/
def FileSystem.ManifestAt (fs : FileSystem) (loc : Location) : Prop :=
  ∃ content manifest, fs.standing? loc = some (.file (some content)) ∧
    Manifest.ofText content = .ok manifest

/-- Two machines at work in one place, whose file systems differ in nothing but what valid manifests
say, and not in the file that the path leads to. -/
structure Machine.DifferInManifests (m m' : Machine) (input : Path) : Prop where
  workingDirectory : m.workingDirectory = m'.workingDirectory
  manifests : ∀ loc, m.files.standing? loc ≠ m'.files.standing? loc →
    m.files.ManifestAt loc ∧ m'.files.ManifestAt loc
  input : ∀ loc, m.files.Reaches m.workingDirectory input loc →
    m.files.standing? loc = m'.files.standing? loc

namespace Machine.DifferInManifests

variable {m m' : Machine} {input : Path}

/-- File systems that differ in manifests agree on which places are files and directories. -/
theorem sameShape (differ : m.DifferInManifests m' input) : m.SameShape m' where
  workingDirectory := differ.workingDirectory
  files loc := by
    by_cases same : m.files.standing? loc = m'.files.standing? loc
    · rw [same]
    · obtain ⟨⟨content, _, file, -⟩, content', _, file', -⟩ := differ.manifests loc same
      rw [file, file']
      rfl

/-- Either machine has a project for a manifest, or they fail for the same reason. -/
theorem ofFile_alike (differ : m.DifferInManifests m' input) (path : Path) :
    (∃ e, Project.ofFile m path = .error e ∧ Project.ofFile m' path = .error e) ∨
      ∃ project project', Project.ofFile m path = .ok project ∧
        Project.ofFile m' path = .ok project' := by
  by_cases same : ∀ loc, m.files.Reaches m.workingDirectory path loc →
      m.files.standing? loc = m'.files.standing? loc
  · have read := FileSystem.readText_alike differ.sameShape.files m.workingDirectory path same
    have alike : Project.ofFile m path = Project.ofFile m' path := by
      rw [Project.ofFile, read, differ.workingDirectory, Project.ofFile]
    rw [alike]
    cases Project.ofFile m' path with
    | error e => exact .inl ⟨e, rfl, rfl⟩
    | ok project => exact .inr ⟨project, project, rfl, rfl⟩
  · obtain ⟨loc, other⟩ := Classical.not_forall.1 same
    obtain ⟨reaches, other⟩ := Classical.not_imp.1 other
    obtain ⟨⟨content, manifest, file, valid⟩, content', manifest', file', valid'⟩ :=
      differ.manifests loc other
    have reaches' := reaches.mono differ.sameShape.files.keeps
    have holds : m.HoldsManifest path manifest := ⟨content, reaches.readText file, valid⟩
    have holds' : m'.HoldsManifest path manifest' :=
      ⟨content', differ.workingDirectory ▸ reaches'.readText file', valid'⟩
    exact .inr ⟨_, _, Project.ofFile_eq_ok_iff.2 ⟨manifest, holds, rfl⟩,
      Project.ofFile_eq_ok_iff.2 ⟨manifest', holds', rfl⟩⟩

/-- The input is the same for both machines. -/
theorem load_alike (differ : m.DifferInManifests m' input) :
    ((SourceUnit.load input : StateM Machine _).run m).1 =
      ((SourceUnit.load input : StateM Machine _).run m').1 := by
  have read :=
    FileSystem.readText_alike differ.sameShape.files m.workingDirectory input differ.input
  have asked (m : Machine) : ((FileAccess.readText input : StateM Machine _).run m).1 =
      m.files.readText m.workingDirectory input := rfl
  rw [SourceUnit.load, (ReadOnly.readText input).run_bind, (ReadOnly.readText input).run_bind,
    asked, asked, read, differ.workingDirectory]
  split
  · rfl
  · rfl

end Machine.DifferInManifests

namespace CommandLine

section Given

variable {o : Options} {m m' : Machine} {input output : Path} {emit : EmitFormat}
  (givenInput : o.input = some input) (givenOutput : o.output = some output)
  (givenEmit : o.emit = some emit)

include givenInput givenOutput givenEmit

/-- With all three options given, nothing is left to the project. -/
theorem Options.merge_of_given (project : Option Project) :
    o.merge project = .ok ⟨input, some output, emit⟩ := by
  rw [merge, givenInput, givenOutput, givenEmit]
  rfl

/-- Whatever the manifests say, options that give every setting are resolved alike. -/
theorem Options.resolve_alike (differ : m.DifferInManifests m' input) :
    ((o.resolve : StateM Machine _).run m).1 = ((o.resolve : StateM Machine _).run m').1 := by
  have merged := o.merge_of_given givenInput givenOutput givenEmit
  have consulted : o.consulted? m = o.consulted? m' := by
    rw [consulted?, consulted?, differ.workingDirectory,
      (Project.blind_findManifest _ m m' differ.sameShape).1]
  rw [run_resolve, run_resolve, consulted]
  cases o.consulted? m' with
  | none => rfl
  | some path =>
    rcases differ.ofFile_alike path with ⟨e, failed, failed'⟩ | ⟨_, _, loaded, loaded'⟩
    · simp only [failed, failed']
    · simp only [loaded, loaded', merged]

/-- So what is compiled is the same. -/
theorem Options.translation?_alike (differ : m.DifferInManifests m' input) :
    o.translation? m = o.translation? m' := by
  rw [translation?, translation?, o.resolve_alike givenInput givenOutput givenEmit differ]
  cases settings : ((o.resolve : StateM Machine _).run m').1 with
  | error e => rfl
  | ok s =>
    have chosen : s.input = input := (chooses_of_resolve settings).input input givenInput
    simp only [Except.toOption, Option.bind_eq_bind, Option.bind_some, chosen, differ.load_alike]

/-- If the options have all settings, runs on machines that differ in manifests only cannot be told
apart. -/
theorem Options.runsAlike (differ : m.DifferInManifests m' input) :
    RunsAlike (o.run : StateM Machine Outcome) m m' := by
  have resolved := o.resolve_alike givenInput givenOutput givenEmit differ
  rw [Options.run]
  refine o.readOnly_resolve.runsAlike_bind resolved ?_
  cases settings : ((o.resolve : StateM Machine _).run m).1 with
  | error e => exact Blind.pure _ m m' differ.sameShape
  | ok s =>
    have chosen : s.input = input := (chooses_of_resolve settings).input input givenInput
    simp only [compileInput]
    refine (SourceUnit.readOnly_load s.input).runsAlike_bind (chosen ▸ differ.load_alike) ?_
    split
    · exact Blind.pure _ m m' differ.sameShape
    split
    · exact Blind.pure _ m m' differ.sameShape
    · exact Blind.pure _ m m' differ.sameShape
    · exact blind_deliver _ _ m m' differ.sameShape

end Given

/-- A run that compiles has resolved its settings. -/
theorem Options.resolve_of_translation? {o : Options} {m : Machine} {s : Settings} {t : Compilation}
    (h : o.translation? m = some (s, t)) : ((o.resolve : StateM Machine _).run m).1 = .ok s := by
  rw [translation?] at h
  obtain ⟨s', settings, h⟩ := Option.bind_eq_some_iff.1 h
  obtain ⟨_, -, h⟩ := Option.bind_eq_some_iff.1 h
  obtain ⟨_, -, h⟩ := Option.bind_eq_some_iff.1 h
  obtain ⟨rfl, -⟩ := Prod.mk.inj (Option.some.inj h)
  cases resolved : ((o.resolve : StateM Machine _).run m).1 with
  | error e => simp [resolved, Except.toOption] at settings
  | ok s => simpa [resolved, Except.toOption] using settings

/-- What has been handed over to a file is written there. -/
theorem written_of_deliver {m : Machine} {s : Settings} {t : Compilation} {path : Path}
    (output : s.output = some path)
    (success : ((deliver s t : StateM Machine Outcome).run m).1.exitCode = 0) :
    m.files.Written ((deliver s t : StateM Machine Outcome).run m).2.files m.workingDirectory path
      (t.register.emit s.emit) := by
  obtain ⟨r, files, run, effect⟩ := run_writeOutput path (t.register.emit s.emit) m
  rw [deliver] at success ⊢
  simp only [output] at success ⊢
  rw [StateT.run_bind, run] at success ⊢
  rcases effect with ⟨rfl, written⟩ | ⟨⟨f, rfl⟩, -⟩
  · exact written
  · exact absurd success (exitCode_failed_ne_zero _ f)

/-- Options lead to one manifest at most. -/
theorem Options.Consults.unique {o : Options} {m : Machine} {path other : Path}
    (h : o.Consults m path) (h' : o.Consults m other) : path = other :=
  Option.some.inj ((consults_iff.1 h).symm.trans (consults_iff.1 h'))

/-- A run consults one manifest at most. If it has settings, each is chosen by itself, and it has
none exactly if the manifest is missing or not valid, or if nothing names an input. So with options
for all of them, a run does the same whatever the valid manifests say, if its input is none of
these: it ends in the same way, prints the same and, if it succeeds, writes the same. -/
theorem Options.settings_override (o : Options) (m : Machine) :
    (∀ path other, o.Consults m path → o.Consults m other → path = other) ∧
      (∀ s, ((o.resolve : StateM Machine _).run m).1 = .ok s → o.Chooses m s) ∧
      ((∃ e, ((o.resolve : StateM Machine _).run m).1 = .error e) ↔
        (∃ path, o.Consults m path ∧ ∀ manifest, ¬ m.HoldsManifest path manifest) ∨
          o.input = none ∧ ∀ path, ¬ o.Consults m path) ∧
      ∀ m' input output emit, o.input = some input → o.output = some output →
        o.emit = some emit → m.DifferInManifests m' input →
          let done := (o.run : StateM Machine Outcome).run m
          let done' := (o.run : StateM Machine Outcome).run m'
          done.1 = done'.1 ∧ m.SameChanges m' done.2 done'.2 ∧
            (done.1.exitCode = 0 → ∃ text,
              m.files.Written done.2.files m.workingDirectory output text ∧
                m'.files.Written done'.2.files m'.workingDirectory output text) := by
  refine ⟨fun _ _ h h' ↦ h.unique h', fun s ↦ chooses_of_resolve, o.resolve_fails_iff m, ?_⟩
  intro m' input output emit givenInput givenOutput givenEmit differ
  obtain ⟨same, changes⟩ := Options.runsAlike givenInput givenOutput givenEmit differ
  refine ⟨same, changes, fun success ↦ ?_⟩
  have translated := o.translation?_alike givenInput givenOutput givenEmit differ
  rcases o.run_cases m with ⟨s, t, found, run⟩ | ⟨-, printed, f, run⟩
  · rcases o.run_cases m' with ⟨s', t', found', run'⟩ | ⟨none, -⟩
    · obtain ⟨rfl, rfl⟩ : s = s' ∧ t = t' := by
        simpa using found.symm.trans (translated.trans found')
      have chosen : s.output = some output :=
        (chooses_of_resolve (resolve_of_translation? found)).output output givenOutput
      have success' : ((o.run : StateM Machine Outcome).run m').1.exitCode = 0 := same ▸ success
      rw [run] at success ⊢
      rw [run'] at success' ⊢
      exact ⟨_, written_of_deliver chosen success, written_of_deliver chosen success'⟩
    · cases found.symm.trans (translated.trans none)
  · rw [run] at success
    exact absurd success (exitCode_failed_ne_zero printed f)

/-! ### Two manifests beside one input -/

end CommandLine

/-- The text of a string. -/
def Toml.Value.text? : Value → Option String
  | string s => some s
  | _ => none

/-- A document with two texts, for the keys that a manifest must have, is a manifest. -/
theorem Manifest.ofText_of_texts {content name input : String}
    (h : (Toml.read? content).map (·.map fun e ↦ (e.1, e.2.text?)) =
      some [("name", some name), ("input", some input)]) :
    ofText content = .ok ⟨name, ⟨input⟩, none, .listing⟩ := by
  have text (v : Toml.Value) (s : String) : v.text? = some s ↔ v = .string s := by
    cases v <;> simp [Toml.Value.text?]
  obtain ⟨entries, read, same⟩ := Option.map_eq_some_iff.1 h
  have both : entries = [("name", .string name), ("input", .string input)] := by
    obtain ⟨first, entries, rfl, here, same⟩ := List.map_eq_cons_iff.1 same
    obtain ⟨second, entries, rfl, here', same⟩ := List.map_eq_cons_iff.1 same
    obtain rfl := List.map_eq_nil_iff.1 same
    simp only [Prod.mk.injEq, text] at here here'
    rw [← here.1, ← here.2, ← here'.1, ← here'.2]
  rw [ofText, read, both]
  refine (ofEntries_eq_ok_iff (by simp)).2 ?_
  exact ⟨by simp [keys], by simp, by simp, by simp, by simp, by simp⟩

/-- A file with this content beside an input. -/
def Machine.manifestBeside (content : String) : Machine :=
  ⟨⟨⟨[("flatgen.toml", .file (some content)), ("x.json", .file (some "{}"))]⟩⟩, []⟩

theorem Machine.standing?_manifestBeside (content content' : String) {loc : Location}
    (other : loc ≠ ["flatgen.toml"]) : (manifestBeside content).files.standing? loc =
      (manifestBeside content').files.standing? loc := by
  cases loc with
  | nil => rfl
  | cons name rest =>
    by_cases here : name = "flatgen.toml"
    · subst here
      cases rest with
      | nil => exact absurd rfl other
      | cons next rest => rfl
    · simp [FileSystem.standing?, FileSystem.find?, FileTree.find?, Directory.find?, manifestBeside,
        List.lookup_cons, beq_false_of_ne here]

/-- Two machines with one manifest each, of different content in the same place. -/
theorem Machine.manifestBeside_differ {content content' : String} {manifest manifest' : Manifest}
    (valid : Manifest.ofText content = .ok manifest)
    (valid' : Manifest.ofText content' = .ok manifest') :
    (manifestBeside content).DifferInManifests (manifestBeside content') ⟨"x.json"⟩ where
  workingDirectory := rfl
  manifests loc other := by
    by_cases here : loc = ["flatgen.toml"]
    · subst here
      exact ⟨⟨content, manifest, rfl, valid⟩, content', manifest', rfl, valid'⟩
    · exact absurd (standing?_manifestBeside content content' here) other
  input loc reaches := by
    have leads : (manifestBeside content).files.Reaches [] ⟨"x.json"⟩ ["x.json"] := ⟨_, rfl, rfl⟩
    rw [reaches.unique leads]
    rfl

/-- Of two manifests that contradict each other neither has a say. -/
theorem CommandLine.Options.settings_override_manifests :
    let o : Options := { input := some ⟨"x.json"⟩, output := some ⟨"y.json"⟩, emit := some .json }
    let m := Machine.manifestBeside "name = 'a'\ninput = 'b'\n"
    let m' := Machine.manifestBeside "name = 'c'\ninput = 'd'\n"
    m.DifferInManifests m' ⟨"x.json"⟩ ∧
      ((o.run : StateM Machine Outcome).run m).1 = ((o.run : StateM Machine Outcome).run m').1 := by
  intro o m m'
  have valid : Manifest.ofText "name = 'a'\ninput = 'b'\n" = .ok ⟨"a", ⟨"b"⟩, none, .listing⟩ :=
    Manifest.ofText_of_texts (by decide +kernel)
  have valid' : Manifest.ofText "name = 'c'\ninput = 'd'\n" = .ok ⟨"c", ⟨"d"⟩, none, .listing⟩ :=
    Manifest.ofText_of_texts (by decide +kernel)
  have differ := Machine.manifestBeside_differ valid valid'
  obtain ⟨-, -, -, twoRuns⟩ := o.settings_override m
  exact ⟨differ, (twoRuns m' _ _ _ rfl rfl rfl differ).1⟩

end FlatDecls
