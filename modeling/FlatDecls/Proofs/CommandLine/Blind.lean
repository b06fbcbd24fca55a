import FlatDecls.Proofs.CommandLine.Effects
import FlatDecls.Proofs.Files.Shape

/-!
# Requests that do not read

Asking what is a file, making directories and writing are blind to what files hold: where two file
systems have the same shape they give the same and change the same (`Blind`), and so does every
program made of them. Thus the search for a manifest finds the same (`Project.blind_findManifest`),
and units are handed over alike (`CommandLine.blind_deliver`).
-/

namespace FlatDecls

/-- Two machines at work in one place, in file systems of the same shape. -/
structure Machine.SameShape (m m' : Machine) : Prop where
  workingDirectory : m.workingDirectory = m'.workingDirectory
  files : m.files.SameShape m'.files

/-- Two machines have changed in the same way, and not where they are at work. -/
structure Machine.SameChanges (m m' after after' : Machine) : Prop where
  left : after.workingDirectory = m.workingDirectory
  right : after'.workingDirectory = m'.workingDirectory
  files : m.files.SameChanges m'.files after.files after'.files

namespace Machine.SameChanges

variable {m m' after after' later later' : Machine}

theorem refl (m m' : Machine) : m.SameChanges m' m m' := ⟨rfl, rfl, .refl _ _⟩

theorem trans (first : m.SameChanges m' after after')
    (second : after.SameChanges after' later later') : m.SameChanges m' later later' where
  left := second.left.trans first.left
  right := second.right.trans first.right
  files := first.files.trans second.files

/-- After the same changes two machines that were alike are still alike. -/
theorem sameShape (changes : m.SameChanges m' after after') (shape : m.SameShape m') :
    after.SameShape after' where
  workingDirectory := by rw [changes.left, changes.right, shape.workingDirectory]
  files := changes.files.sameShape shape.files

end Machine.SameChanges

/-- The program gives the same on both machines and changes the same. -/
def RunsAlike {α : Type} (x : StateM Machine α) (m m' : Machine) : Prop :=
  (x.run m).1 = (x.run m').1 ∧ m.SameChanges m' (x.run m).2 (x.run m').2

/-- The program does not look into files. -/
def Blind {α : Type} (x : StateM Machine α) : Prop := ∀ m m', m.SameShape m' → RunsAlike x m m'

/-- A program that reads first runs alike if it reads the same. -/
theorem ReadOnly.runsAlike_bind {α β : Type} {x : StateM Machine α} {f : α → StateM Machine β}
    {m m' : Machine} (reads : ReadOnly x) (same : (x.run m).1 = (x.run m').1)
    (rest : RunsAlike (f (x.run m).1) m m') : RunsAlike (x >>= f) m m' := by
  rw [RunsAlike, reads.run_bind, reads.run_bind, ← same]
  exact rest

namespace Blind

variable {α β : Type} {x : StateM Machine α} {f : α → StateM Machine β}

theorem pure (a : α) : Blind (pure a) := fun m m' _ ↦ ⟨rfl, .refl m m'⟩

/-- A step that goes on from the same answer is blind if both parts are. -/
theorem bind (first : Blind x) (second : ∀ a, Blind (f a)) : Blind (x >>= f) := by
  intro m m' shape
  have run (m : Machine) : (x >>= f).run m = (f (x.run m).1).run (x.run m).2 := rfl
  obtain ⟨same, changes⟩ := first m m' shape
  obtain ⟨same', changes'⟩ := second (x.run m').1 _ _ (changes.sameShape shape)
  rw [RunsAlike, run, run, same]
  exact ⟨same', changes.trans changes'⟩

/-- Whether there is a file is not a matter of its content. -/
theorem isFile (p : Path) : Blind (FileAccess.isFile p) := by
  rintro ⟨files, cwd⟩ ⟨files', cwd'⟩ ⟨rfl, shape⟩
  exact ⟨FileSystem.isFile_alike shape cwd p, .refl _ _⟩

theorem makeDirectories (p : Path) : Blind (FileAccess.makeDirectories p) := by
  rintro ⟨files, cwd⟩ ⟨files', cwd'⟩ ⟨rfl, shape⟩
  obtain ⟨same, changes⟩ := FileSystem.makeDirectories_alike shape cwd p
  exact ⟨same, rfl, rfl, changes⟩

/-- Writing replaces the content in both machines. -/
theorem writeText (p : Path) (text : String) : Blind (FileAccess.writeText p text) := by
  rintro ⟨files, cwd⟩ ⟨files', cwd'⟩ ⟨rfl, shape⟩
  rw [RunsAlike, CommandLine.run_writeText, CommandLine.run_writeText]
  rcases (FileSystem.writeText_alike shape cwd p text).elim with
    ⟨e, failed, failed'⟩ | ⟨after, after', written, written', changes⟩
  · rw [failed, failed']
    exact ⟨rfl, .refl _ _⟩
  · rw [written, written']
    exact ⟨rfl, rfl, rfl, changes⟩

end Blind

namespace Project

theorem blind_firstManifest (directories : List Path) : Blind (firstManifest directories) := by
  induction directories with
  | nil => exact .pure _
  | cons directory rest ih =>
    refine .bind (.isFile _) fun found ↦ ?_
    split
    · exact .pure _
    · exact ih

/-- The search for a manifest does not look into files. -/
theorem blind_findManifest (start : Path) : Blind (findManifest start) := by
  have begins : Blind (searchStart start) := by
    refine .bind (.isFile _) fun file ↦ ?_
    split <;> exact .pure _
  exact begins.bind fun _ ↦ blind_firstManifest _

end Project

namespace CommandLine

/-- Nor does making the parent of the output. -/
theorem blind_makeParent (path : Path) : Blind (makeParent path) := by
  rw [makeParent]
  split
  · exact .pure _
  split
  · exact .pure _
  · exact (Blind.makeDirectories _).bind fun _ ↦ .pure _

theorem blind_writeOutput (path : Path) (text : String) : Blind (writeOutput path text) := by
  refine (blind_makeParent path).bind fun made ↦ ?_
  split
  · exact .pure _
  · exact (Blind.writeText path text).bind fun _ ↦ .pure _

/-- Once the translation is there, the rest of the run is the same. -/
theorem blind_deliver (s : Settings) (t : Compilation) : Blind (deliver s t) := by
  rw [deliver]
  split
  · exact .pure _
  · refine (blind_writeOutput _ _).bind fun written ↦ ?_
    split <;> exact .pure _

end CommandLine

end FlatDecls
