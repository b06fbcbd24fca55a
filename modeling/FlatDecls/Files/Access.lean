import FlatDecls.Files.Path

/-!
# Access to files

What a program asks of the system's files, for any monad that can answer: whether a path is a
regular file, the text of a file, making directories, writing a file, and the working
directory. Failures are values. So the same program runs on real files and on a model.
-/

namespace FlatDecls

/-- Why the system refuses a request. -/
inductive FileError
  | notFound
  | notADirectory
  | isADirectory
  | alreadyExists
  | nameTooLong
  /-- The file is there, but its bytes are no text. -/
  | notText
  /-- A path cannot hold the character with number zero. -/
  | nulInPath
  /-- Any other failure, in the system's words. -/
  | other (description : String)
  deriving DecidableEq, Repr

/-- The system's words for a failure. -/
def FileError.message : FileError → String
  | notFound => "No such file or directory (os error 2)"
  | notADirectory => "Not a directory (os error 20)"
  | isADirectory => "Is a directory (os error 21)"
  | alreadyExists => "File exists (os error 17)"
  | nameTooLong => "File name too long (os error 36)"
  | notText => "stream did not contain valid UTF-8"
  | nulInPath => "file name contained an unexpected NUL byte"
  | other description => description

/-- The requests that a program can make. -/
class FileAccess (m : Type → Type) where
  workingDirectory : m Path
  isFile : Path → m Bool
  readText : Path → m (Except FileError String)
  /-- Makes a directory and all missing ones above it; one that is there already is fine. -/
  makeDirectories : Path → m (Except FileError Unit)
  /-- Replaces the contents of a file, or makes a new one. -/
  writeText : Path → String → m (Except FileError Unit)

end FlatDecls
