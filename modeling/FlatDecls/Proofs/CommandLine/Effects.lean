import FlatDecls.CommandLine.Run
import FlatDecls.Proofs.Files.Writing

/-!
# What a run changes

Until the units are there a run only reads (`ReadOnly`), so one that fails before has changed
nothing. After that it either prints the units or writes them to its output file, and then this file
and missing directories of its path are all that is new (`Options.run_effects`).
-/

namespace FlatDecls

/-! ### Reading -/

/-- The request leaves the machine as it is. -/
def ReadOnly {α : Type} (x : StateM Machine α) : Prop := ∀ m, (x.run m).2 = m

namespace ReadOnly

variable {α β : Type} {x : StateM Machine α} {f : α → StateM Machine β}

theorem pure (a : α) : ReadOnly (pure a) := fun _ ↦ rfl

/-- Behind a step that only reads, the next one finds the machine unchanged. -/
theorem run_bind (h : ReadOnly x) (m : Machine) : (x >>= f).run m = (f (x.run m).1).run m := by
  have both : (x >>= f).run m = (f (x.run m).1).run (x.run m).2 := rfl
  rw [both, h m]

/-- Reading twice is only reading. -/
theorem bind (first : ReadOnly x) (second : ∀ a, ReadOnly (f a)) : ReadOnly (x >>= f) := by
  intro m
  rw [first.run_bind]
  exact second _ m

theorem readText (p : Path) : ReadOnly (FileAccess.readText p) := fun _ ↦ rfl

theorem isFile (p : Path) : ReadOnly (FileAccess.isFile p) := fun _ ↦ rfl

theorem workingDirectory : ReadOnly FileAccess.workingDirectory := fun _ ↦ rfl

end ReadOnly

namespace Project

/-- Loading a manifest writes nothing. -/
theorem readOnly_load (p : Path) : ReadOnly (load p) := by
  refine .bind (.readText p) fun content ↦ ?_
  split
  · exact .pure _
  · split <;> exact .pure _

/-- Neither does looking for one, however many directories are tried. -/
theorem readOnly_firstManifest (directories : List Path) :
    ReadOnly (firstManifest directories) := by
  induction directories with
  | nil => exact .pure _
  | cons directory rest ih =>
    refine .bind (.isFile _) fun found ↦ ?_
    split
    · exact .pure _
    · exact ih

theorem readOnly_findManifest (start : Path) : ReadOnly (findManifest start) := by
  have begins : ReadOnly (searchStart start) := by
    refine .bind (.isFile _) fun file ↦ ?_
    split <;> exact .pure _
  exact begins.bind fun _ ↦ readOnly_firstManifest _

/-- Discovery is a search with a load behind it. -/
theorem readOnly_discover (start : Path) : ReadOnly (discover start) := by
  refine (readOnly_findManifest start).bind fun found ↦ ?_
  split
  · exact .pure _
  · exact (readOnly_load _).bind fun _ ↦ .pure _

end Project

theorem SourceUnit.readOnly_load (p : Path) : ReadOnly (load p) := by
  refine .bind (.readText p) fun content ↦ ?_
  split <;> exact .pure _

namespace CommandLine

/-- Settings are resolved before anything is written. -/
theorem Options.readOnly_resolve (o : Options) : ReadOnly o.resolve := by
  have project : ReadOnly o.project := by
    rw [Options.project]
    split
    · exact (Project.readOnly_load _).bind fun _ ↦ .pure _
    split
    · exact Project.readOnly_discover _
    · exact ReadOnly.workingDirectory.bind fun _ ↦ Project.readOnly_discover _
  refine project.bind fun found ↦ ?_
  split <;> exact .pure _

/-! ### Translating -/

/-- What a run has to hand over, with the settings for it: there is nothing if the settings cannot
be found, the input cannot be read or describes no source unit, or the unit has no compilation. -/
def Options.translation? (o : Options) (m : Machine) : Option (Settings × Compilation) := do
  let s ← ((o.resolve : StateM Machine _).run m).1.toOption
  let u ← ((SourceUnit.load s.input : StateM Machine _).run m).1.toOption
  let t ← (u.compile o.denyWarnings).toOption
  return (s, t)

/-- A run with a translation hands it over, and one without fails before anything has changed. -/
theorem Options.run_cases (o : Options) (m : Machine) :
    (∃ s t, o.translation? m = some (s, t) ∧
      (o.run : StateM Machine Outcome).run m = (deliver s t : StateM Machine Outcome).run m) ∨
    o.translation? m = none ∧
      ∃ printed f, (o.run : StateM Machine Outcome).run m = (failed printed f, m) := by
  rw [Options.run, o.readOnly_resolve.run_bind, Options.translation?]
  cases (StateT.run (o.resolve : StateM Machine _) m).1 with
  | error e => exact .inr ⟨rfl, _, _, rfl⟩
  | ok s =>
    simp only [compileInput, Except.toOption, Option.bind_eq_bind, Option.bind_some]
    rw [(SourceUnit.readOnly_load s.input).run_bind]
    cases (StateT.run (SourceUnit.load s.input : StateM Machine _) m).1 with
    | error e => exact .inr ⟨rfl, _, _, rfl⟩
    | ok u =>
      cases compiled : u.compile o.denyWarnings with
      | error e => cases e <;> exact .inr ⟨by simp [compiled], _, _, by simp [compiled]; rfl⟩
      | ok t => exact .inl ⟨s, t, by simp [compiled], by simp [compiled]⟩

/-! ### Handing over -/

/-- Whether it succeeds or not, making the parent of the output changes nothing but directories
above the output. -/
theorem run_makeParent (path : Path) (m : Machine) :
    ∃ r files, (makeParent path : StateM Machine _).run m = (r, { m with files }) ∧
      ∀ loc, m.files.AtMostMade files m.workingDirectory path.ancestors.tail loc := by
  rw [makeParent]
  split
  · exact ⟨_, m.files, rfl, fun _ ↦ .inl rfl⟩
  next parent up =>
    split
    · exact ⟨_, m.files, rfl, fun _ ↦ .inl rfl⟩
    · rw [Path.tail_ancestors up]
      exact ⟨_, (m.files.makeDirectories m.workingDirectory parent).2, rfl,
        FileSystem.atMostMade_makeDirectories _ _ _⟩

theorem run_writeText (path : Path) (text : String) (m : Machine) :
    (FileAccess.writeText path text : StateM Machine _).run m =
      match m.files.writeText m.workingDirectory path text with
      | .ok files => (.ok (), { m with files })
      | .error e => (.error e, m) := rfl

/-- Writing the output changes nothing but its file, and no file if it fails. -/
theorem run_writeOutput (path : Path) (text : String) (m : Machine) :
    ∃ r files, (writeOutput path text : StateM Machine _).run m = (r, { m with files }) ∧
      (r = .ok () ∧ m.files.Written files m.workingDirectory path text ∨
        (∃ f, r = .error f) ∧
          ∀ loc, m.files.AtMostMade files m.workingDirectory path.ancestors.tail loc) := by
  obtain ⟨r, files, made, directories⟩ := run_makeParent path m
  have reported := congrArg (fun done ↦ (done.1.mapError fun e ↦
    (⟨s!"Failed to write {path.text}", [e.message]⟩ : Failure), done.2))
    (run_writeText path text { m with files })
  rw [writeOutput, StateT.run_bind, made]
  cases r with
  | error f => exact ⟨_, files, rfl, .inr ⟨⟨f, rfl⟩, directories⟩⟩
  | ok _ =>
    cases written : files.writeText m.workingDirectory path text with
    | error e =>
      simp only [written] at reported
      exact ⟨_, files, reported, .inr ⟨⟨_, rfl⟩, directories⟩⟩
    | ok after =>
      simp only [written] at reported
      exact ⟨_, after, reported, .inl ⟨rfl, FileSystem.written_of_writeText directories written⟩⟩

/-- A failure never exits like a success. -/
theorem exitCode_failed_ne_zero (printed : List String) (f : Failure) :
    (failed printed f).exitCode ≠ 0 :=
  (by decide : (1 : UInt32) ≠ 0)

/-- A run that has no translation fails, prints no units and changes nothing. One that has prints
the units and changes nothing if there is no output path. Otherwise it prints no units; either it
succeeds, and the text of the units has been written to the file and nothing else has changed, or it
fails, and nothing has changed but that parent directories of the file may have been made. -/
theorem Options.run_effects (o : Options) (m : Machine) :
    let done := (o.run : StateM Machine Outcome).run m
    match o.translation? m with
    | none => done.1.exitCode ≠ 0 ∧ done.1.output = "" ∧ done.2 = m
    | some (s, t) =>
      match s.output with
      | none => done.1.exitCode = 0 ∧ done.1.output = t.register.emit s.emit ∧ done.2 = m
      | some path =>
        done.1.output = "" ∧ done.2.workingDirectory = m.workingDirectory ∧
          (done.1.exitCode = 0 ∧ m.files.Written done.2.files m.workingDirectory path
              (t.register.emit s.emit) ∨
            done.1.exitCode ≠ 0 ∧ ∀ loc, m.files.AtMostMade done.2.files m.workingDirectory
              path.ancestors.tail loc) := by
  rcases o.run_cases m with ⟨s, t, translated, run⟩ | ⟨none, printed, f, run⟩
  · rw [run, translated, deliver]
    cases output : s.output with
    | none =>
      simp only [output]
      exact ⟨rfl, rfl, rfl⟩
    | some path =>
      obtain ⟨r, files, written, effect⟩ := run_writeOutput path (t.register.emit s.emit) m
      simp only [output]
      rw [StateT.run_bind, written]
      rcases effect with ⟨rfl, effect⟩ | ⟨⟨f, rfl⟩, effect⟩
      · exact ⟨rfl, rfl, .inl ⟨rfl, effect⟩⟩
      · exact ⟨rfl, rfl, .inr ⟨exitCode_failed_ne_zero _ f, effect⟩⟩
  · rw [run, none]
    exact ⟨exitCode_failed_ne_zero _ f, rfl, rfl⟩

end CommandLine

end FlatDecls
