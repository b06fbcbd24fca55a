import FlatDecls.Flat.Register

/-!
# Diagnostics

Findings that do not stop a run. Each has a severity, a code that says what kind of finding it
is, a message, and perhaps the path of the declaration it is about and further notes. The
collection of a run keeps them in the order in which they were made; denying warnings turns
each warning into an error with a note that says so.
-/

namespace FlatDecls

/-- How grave a finding is. -/
inductive Severity
  | error
  | warning
  | info
  | hint
  deriving DecidableEq, Repr

/-- The name of a severity. -/
def Severity.name : Severity → String
  | error => "error"
  | warning => "warning"
  | info => "info"
  | hint => "hint"

/-- The kinds of findings: losses from 1000 on, remarks on the input from 2000 on, the order
of the output from 3000 on. -/
inductive Code
  | bitFieldFlattened
  | aliasSkipped
  | forwardReference
  deriving DecidableEq, Repr

namespace Code

/-- The number of a kind. -/
def number : Code → Nat
  | bitFieldFlattened => 1001
  | aliasSkipped => 2001
  | forwardReference => 3001

/-- The name of a kind. -/
def name : Code → String
  | bitFieldFlattened => "BitFieldFlattened"
  | aliasSkipped => "AliasSkipped"
  | forwardReference => "ForwardReference"

end Code

/-- A finding. -/
structure Diagnostic where
  severity : Severity
  code : Code
  message : String
  /-- The path of the declaration that the finding is about. -/
  location : Option String := none
  notes : List String := []
  deriving DecidableEq, Repr

namespace Diagnostic

/-- A warning without location. -/
def warning (code : Code) (message : String) : Diagnostic :=
  { severity := .warning, code, message }

/-- A remark without location. -/
def info (code : Code) (message : String) : Diagnostic :=
  { severity := .info, code, message }

/-- The same finding at a location. -/
def locate (d : Diagnostic) (location : String) : Diagnostic :=
  { d with location := some location }

/-- The same finding with one more note. -/
def note (d : Diagnostic) (text : String) : Diagnostic :=
  { d with notes := d.notes ++ [text] }

/-! ### The findings of this program -/

/-- A bit-field became a plain field of its storage type. -/
def bitFieldFlattened (owner field : String) (width : UInt32) (storage : String) :
    Diagnostic :=
  let message :=
    s!"Bit-field '{field}' ({width.toNat} bits) lowered as a plain '{storage}' field; "
      ++ "width and offset are not preserved"
  (warning .bitFieldFlattened message).locate s!"{owner}.{field}"

/-- An alias names a type that the source unit does not declare. -/
def aliasSkipped (name target : String) : Diagnostic :=
  let message :=
    s!"Type alias '{name}' names '{target}', which is not defined here; skipped"
  (info .aliasSkipped message).locate name

/-- A field holds a unit that is not emitted before the field's structure. -/
def forwardReference (r : ForwardReference) : Diagnostic :=
  let message :=
    s!"Field '{r.field}' of '{r.structureName}' uses '{r.target}', which is emitted after it"
  let positions :=
    s!"'{r.structureName}' is unit #{r.position}, '{r.target}' is unit #{r.targetPosition}"
  ((warning .forwardReference message).locate s!"{r.structureName}.{r.field}").note positions

/-! ### Denying warnings -/

/-- The note on a warning that was made an error. -/
def deniedNote : String := "warnings are denied for this run"

/-- A warning becomes an error with one more note; any other finding stays as it is. -/
def deny (d : Diagnostic) : Diagnostic :=
  if d.severity = .warning then { d with severity := .error, notes := d.notes ++ [deniedNote] }
  else d

/-- Denying twice is denying once. -/
@[simp]
theorem deny_deny (d : Diagnostic) : d.deny.deny = d.deny := by
  by_cases h : d.severity = .warning <;> simp [deny, h]

/-! ### Texts -/

/-- A finding in running text. -/
def display (d : Diagnostic) : String :=
  d.severity.name ++ ": " ++ d.message
    ++ (d.location.map fun l ↦ s!" (at {l})").getD ""
    ++ String.join (d.notes.map fun n ↦ "\n  note: " ++ n)

/-- A finding as a block of lines with its code. -/
def report (d : Diagnostic) : String :=
  s!"{d.severity.name}[F{d.code.number}]: {d.message}"
    ++ (d.location.map fun l ↦ "\n  --> " ++ l).getD ""
    ++ String.join (d.notes.map fun n ↦ "\n  = note: " ++ n)

end Diagnostic

/-! ### Collections -/

/-- The findings of a run, in order. -/
structure Diagnostics where
  entries : List Diagnostic := []
  deriving DecidableEq, Repr

namespace Diagnostics

/-- One more finding at the end. -/
def add (ds : Diagnostics) (d : Diagnostic) : Diagnostics := ⟨ds.entries ++ [d]⟩

/-- The number of findings. -/
def size (ds : Diagnostics) : Nat := ds.entries.length

/-- Are there no findings? -/
def isEmpty (ds : Diagnostics) : Bool := ds.entries.isEmpty

/-- The findings of one severity, in order. -/
def ofSeverity (ds : Diagnostics) (s : Severity) : List Diagnostic :=
  ds.entries.filter (·.severity == s)

/-- The errors, in order. -/
def errors (ds : Diagnostics) : List Diagnostic := ds.ofSeverity .error

/-- The warnings, in order. -/
def warnings (ds : Diagnostics) : List Diagnostic := ds.ofSeverity .warning

/-- Is any finding an error? -/
def hasErrors (ds : Diagnostics) : Bool := ds.entries.any (·.severity == .error)

/-- All warnings become errors. -/
def denyWarnings (ds : Diagnostics) : Diagnostics := ⟨ds.entries.map Diagnostic.deny⟩

/-- The counts of errors and warnings in one line. -/
def summary (ds : Diagnostics) : String :=
  if ds.isEmpty then "No issues found"
  else s!"{ds.errors.length} errors, {ds.warnings.length} warnings"

/-- All findings as blocks of lines. -/
def report (ds : Diagnostics) : String :=
  "\n".intercalate (ds.entries.map Diagnostic.report)

/-- Denying all warnings twice is denying them once. -/
@[simp]
theorem denyWarnings_denyWarnings (ds : Diagnostics) :
    ds.denyWarnings.denyWarnings = ds.denyWarnings := by
  simp [denyWarnings]

end Diagnostics

end FlatDecls
