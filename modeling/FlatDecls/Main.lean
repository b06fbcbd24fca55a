import FlatDecls.CommandLine.Run

/-!
# The program

Runs the command line on the files of the system. All decisions are made by
`CommandLine.run`; here its requests are passed on and its outcome is printed.
-/

namespace FlatDecls

/-- The failure that a request of the system ended with. -/
def FileError.ofSystem : IO.Error → FileError
  | .noFileOrDirectory .. => .notFound
  | .inappropriateType .. => .notADirectory
  | .alreadyExists .. => .alreadyExists
  | e => .other (toString e)

/-- A request as a value. -/
def attempt (request : IO α) : IO (Except FileError α) := do
  try return .ok (← request)
  catch e => return .error (.ofSystem e)

/-- The type of what stands at a path, if anything does. -/
def typeAt (p : Path) : IO (Option IO.FS.FileType) := do
  try return some (← (← IO.FS.realPath p.text).metadata).type
  catch _ => return none

instance : FileAccess IO where
  workingDirectory := do return ⟨toString (← IO.currentDir)⟩
  isFile p := do return (← typeAt p) == some .file
  readText p := do
    if (← typeAt p) == some .dir then return .error .isADirectory
    match ← attempt (IO.FS.readBinFile p.text) with
    | .error e => return .error e
    | .ok bytes =>
      match String.fromUTF8? bytes with
      | some text => return .ok text
      | none => return .error .notText
  makeDirectories p := attempt (IO.FS.createDirAll p.text)
  writeText p text := do
    if (← typeAt p) == some .dir then return .error .isADirectory
    attempt (IO.FS.writeFile p.text text)

end FlatDecls

/-- Runs the program and gives its exit code. -/
def main (arguments : List String) : IO UInt32 := do
  let outcome ← FlatDecls.CommandLine.run (m := IO) arguments
  for paragraph in outcome.errors do
    IO.eprintln paragraph
  IO.print outcome.output
  return outcome.exitCode
