import FlatDecls.Flattening.SourceUnit

/-!
# Compilation

A whole run on a source unit: flattening from nothing, then one warning for each forward
reference of the finished register. When warnings are denied, a run with a warning fails with
all its findings.
-/

namespace FlatDecls

/-- Why a compilation has no result. -/
inductive CompileError
  | flattening (e : FlattenError)
  | warningsDenied (diagnostics : Diagnostics)
  deriving DecidableEq, Repr

/-- The sentence that reports a failed compilation. -/
def CompileError.message : CompileError → String
  | flattening e => e.message
  | warningsDenied ds => s!"{ds.errors.length} warning(s) denied"

/-- The units of a source unit, and what was found on the way. -/
structure Compilation where
  register : Register
  diagnostics : Diagnostics
  deriving DecidableEq, Repr

/-- The findings of a finished flattening run: its own, then those on forward references. -/
def Progress.allDiagnostics (p : Progress) : Diagnostics :=
  ⟨p.diagnostics.entries ++ p.register.forwardReferences.map Diagnostic.forwardReference⟩

/-- The log of a finished flattening run, with an event for each forward reference. -/
def Progress.allEvents (p : Progress) : List Event :=
  p.events ++ p.register.forwardReferences.map Event.forwardReference

namespace SourceUnit

/-- Compiles a unit, and gives the log of the run besides its result. -/
def compileLogged (u : SourceUnit) (denyWarnings : Bool) :
    Except CompileError Compilation × List Event :=
  match u.flatten.runFrom {} with
  | (.error e, p) => (.error (.flattening e), p.events)
  | (.ok (), p) =>
    let done : Event := .compiled u.aliases.length p.register.size
    if denyWarnings then
      let denied := p.allDiagnostics.denyWarnings
      if denied.hasErrors then (.error (.warningsDenied denied), p.allEvents)
      else (.ok ⟨p.register, denied⟩, p.allEvents ++ [done])
    else (.ok ⟨p.register, p.allDiagnostics⟩, p.allEvents ++ [done])

/-- Compiles a unit. -/
def compile (u : SourceUnit) (denyWarnings : Bool) :
    Except CompileError Compilation :=
  (u.compileLogged denyWarnings).1

end SourceUnit

end FlatDecls
