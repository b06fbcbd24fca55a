import FlatDecls.Declaration.Decode
import FlatDecls.Files.Access

/-!
# Loading declaration trees

Reading a source unit from a file: the file must be readable text, and the text must
describe a unit.
-/

namespace FlatDecls

/-- Why a file has no source unit. -/
inductive LoadError
  | unreadable (path : Path) (e : FileError)
  | malformed (e : Json.DecodeError)
  deriving DecidableEq, Repr

namespace LoadError

/-- The sentence that reports a failure to load. -/
def message : LoadError → String
  | unreadable path e => s!"failed to read {path.text}: {e.message}"
  | malformed e => s!"malformed declaration tree: {e.message}"

/-- The sentence that reports what lies behind it. -/
def cause : LoadError → String
  | unreadable _ e => e.message
  | malformed e => e.message

end LoadError

/-- The source unit that a file describes. -/
def SourceUnit.load {m : Type → Type} [Monad m] [FileAccess m] (path : Path) :
    m (Except LoadError SourceUnit) := do
  match ← FileAccess.readText path with
  | .error e => return .error (.unreadable path e)
  | .ok text => return (SourceUnit.ofJson text).mapError .malformed

end FlatDecls
