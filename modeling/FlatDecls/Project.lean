import FlatDecls.Files.Access
import FlatDecls.Manifest

/-!
# Projects

A project is a manifest in its place. The paths in the manifest are seen from the directory
that holds it. A project is found from a path by looking for the manifest's file name in the
directory of the path and then in each directory above, as the text of the path names them;
the first regular file of that name is taken, whatever its contents.
-/

namespace FlatDecls

/-- A manifest with its path and directory. -/
structure Project where
  manifestPath : Path
  rootDirectory : Path
  manifest : Manifest
  deriving DecidableEq, Repr

namespace Project

/-- Where the declarations are read from. -/
def inputPath (p : Project) : Path := p.rootDirectory.join p.manifest.input

/-- Where the units are written to, if the manifest says so. -/
def outputPath (p : Project) : Option Path := p.manifest.output.map p.rootDirectory.join

/-- The file name of manifests. -/
def manifestName : Path := ⟨"flatgen.toml"⟩

end Project

/-- Why a manifest has no project. -/
inductive ProjectCause
  | unreadable (e : FileError)
  | invalid (e : ManifestError)
  deriving DecidableEq, Repr

/-- A manifest that cannot be used. -/
structure ProjectError where
  manifestPath : Path
  cause : ProjectCause
  deriving DecidableEq, Repr

/-- The sentence that reports a manifest that cannot be used. -/
def ProjectError.message (e : ProjectError) : String :=
  s!"Failed to parse manifest at {e.manifestPath.text}"

namespace Project

variable {m : Type → Type} [Monad m] [FileAccess m]

/-- The project of the manifest at this path. -/
def load (manifestPath : Path) : m (Except ProjectError Project) := do
  match ← FileAccess.readText manifestPath with
  | .error e => return .error ⟨manifestPath, .unreadable e⟩
  | .ok content =>
    match Manifest.ofText content with
    | .error e => return .error ⟨manifestPath, .invalid e⟩
    | .ok manifest =>
      return .ok ⟨manifestPath, manifestPath.parent.getD ⟨""⟩, manifest⟩

/-- The manifest in the first of these directories that has one. -/
def firstManifest : List Path → m (Option Path)
  | [] => return none
  | directory :: rest => do
    let candidate := directory.join manifestName
    if ← FileAccess.isFile candidate then return some candidate
    else firstManifest rest

/-- The directory in which the search from a path begins: that of a file, and otherwise the
path itself, whether or not anything is there. -/
def searchStart (start : Path) : m Path := do
  if ← FileAccess.isFile start then return start.parent.getD start else return start

/-- The manifest that is nearest to a path. -/
def findManifest (start : Path) : m (Option Path) := do
  firstManifest (← searchStart start).ancestors

/-- The project that a path belongs to, if there is a manifest for it. -/
def discover (start : Path) : m (Except ProjectError (Option Project)) := do
  match ← findManifest start with
  | none => return .ok none
  | some manifestPath => return some <$> (← load manifestPath)

end Project

end FlatDecls
