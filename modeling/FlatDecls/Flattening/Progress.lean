import FlatDecls.Diagnostics
import FlatDecls.Flattening.Event
import FlatDecls.Declaration.Naming

/-!
# Flattening runs

A run adds units to a register, findings to a collection and events to a log. It can fail, and
then everything added before stays: a failed run has a state as well as an error, so a caller
that goes on sees what the failed part left behind.
-/

namespace FlatDecls

/-- Why flattening cannot go on. `owner` is the name under which the aggregate with the
offending field is being flattened. -/
inductive FlattenError
  /-- The owner's body has only `declared` declarations. -/
  | danglingNested (owner field : String) (index : UInt64) (declared : Nat)
  | unsupportedArray (owner field : String) (size : ArraySize)
  | unnamedType (owner field : String) (cause : UnnamedType)
  deriving DecidableEq, Repr

/-- The sentence that reports a failure. -/
def FlattenError.message : FlattenError → String
  | danglingNested owner field index declared =>
    s!"field '{field}' of '{owner}' refers to nested declaration #{index.toNat}, "
      ++ s!"but '{owner}' has only {declared} nested declarations"
  | unsupportedArray owner field size =>
    s!"field '{field}' of '{owner}' is an array of {size.description} size"
  | unnamedType owner field cause =>
    s!"cannot name the type of field '{field}' of '{owner}': {cause.message}"

/-- What has been added so far. -/
structure Progress where
  register : Register := {}
  diagnostics : Diagnostics := {}
  events : List Event := []

/-- A part of a run: it changes the progress, and has a result or an error. -/
abbrev Flatten := ExceptT FlattenError (StateM Progress)

namespace Flatten

/-- The outcome of a part of a run and the progress behind it. -/
def runFrom (m : Flatten α) (p : Progress) : Except FlattenError α × Progress :=
  (ExceptT.run m).run p

/-- Logs an event. -/
def log (e : Event) : Flatten Unit :=
  modify fun p ↦ { p with events := p.events ++ [e] }

/-- Adds a finding. -/
def report (d : Diagnostic) : Flatten Unit :=
  modify fun p ↦ { p with diagnostics := p.diagnostics.add d }

/-- Registers a unit and gives its position. -/
def register (u : FlatUnit) : Flatten Nat :=
  modifyGet fun p ↦ (p.register.size, { p with register := p.register.push u })

@[simp]
theorem runFrom_pure (a : α) (p : Progress) : runFrom (pure a) p = (.ok a, p) := rfl

@[simp]
theorem runFrom_throw (e : FlattenError) (p : Progress) :
    runFrom (throw e : Flatten α) p = (.error e, p) := rfl

/-- A run goes on after a part that succeeded, from the progress behind it. -/
theorem runFrom_bind (m : Flatten α) (f : α → Flatten β) (p : Progress) :
    runFrom (m >>= f) p =
      match runFrom m p with
      | (.ok a, q) => runFrom (f a) q
      | (.error e, q) => (.error e, q) := by
  simp only [runFrom, ExceptT.run_bind, StateT.run_bind]
  cases h : (ExceptT.run m).run p with
  | mk r q => cases r <;> rfl

@[simp]
theorem runFrom_log (e : Event) (p : Progress) :
    runFrom (log e) p = (.ok (), { p with events := p.events ++ [e] }) := rfl

@[simp]
theorem runFrom_report (d : Diagnostic) (p : Progress) :
    runFrom (report d) p = (.ok (), { p with diagnostics := p.diagnostics.add d }) := rfl

@[simp]
theorem runFrom_register (u : FlatUnit) (p : Progress) :
    runFrom (register u) p =
      (.ok p.register.size, { p with register := p.register.push u }) := rfl

end Flatten

end FlatDecls
