import FlatDecls.Files.Access
import FlatDecls.Files.Tree

/-!
# A model of a file system

A tree of files whose root is a directory. Paths are followed name by name as the system does
it: every name but the last must be that of a directory, `..` goes up one directory, and a
slash at the end asks for a directory. There are no links, so every file has one location. A
relative path is followed from the root too, behind the location of the working directory.
-/

namespace FlatDecls

/-- The number of bytes that a path must stay below. -/
def pathLimit : Nat := 4096

/-- The number of bytes that a name may have. -/
def nameLimit : Nat := 255

/-- A tree of files, told by what its root holds. -/
structure FileSystem where
  root : Directory := .empty

/-! ### Following paths -/

/-- A place in a tree, with the names that lead to it, the last one first, and the directory
that each was found in. -/
structure Place where
  here : FileTree
  way : List (String × Directory) := []

namespace Place

/-- The names on the way to the place. -/
def location (p : Place) : Location := (p.way.map (·.1)).reverse

/-- The directory above; the root is above itself. -/
def up (p : Place) : Place :=
  match p.way with
  | [] => p
  | (_, d) :: way => ⟨.directory d, way⟩

/-- The place behind a list of segments. -/
def follow : Place → List String → Except FileError Place
  | p, [] => .ok p
  | p, s :: rest =>
    match p.here with
    | .file _ => .error .notADirectory
    | .directory d =>
      if s = "" || s = "." then p.follow rest
      else if s = ".." then p.up.follow rest
      else if nameLimit < s.utf8ByteSize then .error .nameTooLong
      else
        match d.find? s with
        | none => .error .notFound
        | some t => follow ⟨t, (s, d) :: p.way⟩ rest

end Place

/-- The failure of a path that is not even looked at. -/
def Path.refused? (p : Path) : Option FileError :=
  if p.text.toList.any (·.toNat = 0) then some .nulInPath
  else if p.isEmpty then some .notFound
  else if pathLimit ≤ p.text.utf8ByteSize then some .nameTooLong
  else none

/-- The segments that lead from the root to a path seen from a working directory. -/
def Path.segmentsFrom (cwd : Location) (p : Path) : List String :=
  if p.isAbsolute then p.segments else cwd ++ p.segments

namespace FileSystem

/-- Where following a path begins. -/
def start (fs : FileSystem) : Place := ⟨.directory fs.root, []⟩

/-- The place that a path leads to. -/
def locate (fs : FileSystem) (cwd : Location) (p : Path) : Except FileError Place :=
  match p.refused? with
  | some e => .error e
  | none => fs.start.follow (p.segmentsFrom cwd)

/-- Does the path lead to a regular file? -/
def isFile (fs : FileSystem) (cwd : Location) (p : Path) : Bool :=
  match fs.locate cwd p with
  | .ok ⟨.file _, _⟩ => true
  | _ => false

/-- Does the path lead to a directory? -/
def isDirectory (fs : FileSystem) (cwd : Location) (p : Path) : Bool :=
  match fs.locate cwd p with
  | .ok ⟨.directory _, _⟩ => true
  | _ => false

/-- The text of a file. -/
def readText (fs : FileSystem) (cwd : Location) (p : Path) : Except FileError String := do
  match (← fs.locate cwd p).here with
  | .directory _ => throw .isADirectory
  | .file none => throw .notText
  | .file (some text) => return text

/-! ### Changes -/

/-- The same file system with this at a location. -/
def put (fs : FileSystem) (loc : Location) (t : FileTree) : FileSystem := ⟨fs.root.put loc t⟩

/-- A name that may be taken or not, in a directory at a location. -/
structure Target where
  above : Location
  directory : Directory
  name : String

namespace Target

/-- The location of the name. -/
def location (t : Target) : Location := t.above ++ [t.name]

/-- What stands under the name. -/
def occupant? (t : Target) : Option FileTree := t.directory.find? t.name

/-- Does the name have more bytes than a name may have? -/
def isTooLong (t : Target) : Bool := nameLimit < t.name.utf8ByteSize

end Target

/-- The name that a path ends in, slashes behind it left aside, in the directory before it.
There is none if the path ends in the root, `.` or `..`: these lead to directories. -/
def target (fs : FileSystem) (cwd : Location) (p : Path) :
    Except FileError (Option Target) := do
  if let some e := p.refused? then throw e
  let segments := ((p.segmentsFrom cwd).reverse.dropWhile (· == "")).reverse
  match segments.getLast? with
  | none => return none
  | some "." | some ".." =>
    let _ ← fs.start.follow segments
    return none
  | some name =>
    let above ← fs.start.follow segments.dropLast
    match above.here with
    | .file _ => throw .notADirectory
    | .directory d => return some ⟨above.location, d, name⟩

/-- Makes one directory, where nothing may stand yet. -/
def makeDirectory (fs : FileSystem) (cwd : Location) (p : Path) :
    Except FileError FileSystem := do
  match ← fs.target cwd p with
  | none => throw .alreadyExists
  | some t =>
    if t.isTooLong then throw .nameTooLong
    if t.occupant?.isSome then throw .alreadyExists
    return fs.put t.location (.directory .empty)

/-- A second attempt at a directory after those above it were made. -/
def finishDirectory (fs : FileSystem) (cwd : Location) (p : Path) :
    Except FileError Unit × FileSystem :=
  match fs.makeDirectory cwd p with
  | .ok fs => (.ok (), fs)
  | .error e => (if fs.isDirectory cwd p then .ok () else .error e, fs)

/-- Makes the first of these directories, where each one is the parent of the one before. Only
if the first attempt finds nothing on the way are the others made first. -/
def makeDirectoriesFrom (fs : FileSystem) (cwd : Location) :
    List Path → Except FileError Unit × FileSystem
  | [] => (.error (.other "failed to create whole tree"), fs)
  | p :: above =>
    if p.isEmpty then (.ok (), fs)
    else
      match fs.makeDirectory cwd p with
      | .ok fs => (.ok (), fs)
      | .error .notFound =>
        match fs.makeDirectoriesFrom cwd above with
        | (.ok _, fs) => fs.finishDirectory cwd p
        | failed => failed
      | .error e => (if fs.isDirectory cwd p then .ok () else .error e, fs)

/-- Makes a directory and all missing ones above it. -/
def makeDirectories (fs : FileSystem) (cwd : Location) (p : Path) :
    Except FileError Unit × FileSystem :=
  fs.makeDirectoriesFrom cwd p.ancestors

/-- Replaces the contents of a file, or makes a new one. A slash behind the name asks for a
directory, so nothing is written whatever stands there. -/
def writeText (fs : FileSystem) (cwd : Location) (p : Path) (text : String) :
    Except FileError FileSystem := do
  match ← fs.target cwd p with
  | none => throw .isADirectory
  | some t =>
    if p.segments.getLast? == some "" then throw .isADirectory
    if t.isTooLong then throw .nameTooLong
    if let some (.directory _) := t.occupant? then throw .isADirectory
    return fs.put t.location (.file (some text))

end FileSystem

/-! ### Programs on the model -/

/-- A file system and the directory in which a program runs. -/
structure Machine where
  files : FileSystem := {}
  workingDirectory : Location := []

instance : FileAccess (StateM Machine) where
  workingDirectory := do return Location.path (← get).workingDirectory
  isFile p := do
    let m ← get
    return m.files.isFile m.workingDirectory p
  readText p := do
    let m ← get
    return m.files.readText m.workingDirectory p
  makeDirectories p := modifyGet fun m ↦
    let (result, files) := m.files.makeDirectories m.workingDirectory p
    (result, { m with files })
  writeText p text := modifyGet fun m ↦
    match m.files.writeText m.workingDirectory p text with
    | .ok files => (.ok (), { m with files })
    | .error e => (.error e, m)

end FlatDecls
