import FlatDecls.Emission
import FlatDecls.Files.Path
import FlatDecls.Found
import FlatDecls.Toml.Document

/-!
# Project manifests

A manifest is a TOML document with the keys `name` and `input`, and perhaps `output` and
`emit`; it has no other keys. The document is read completely first. Then its keys are judged
in alphabetical order, so that the first of several problems does not depend on how the lines
are arranged, and missing keys come last.
-/

namespace FlatDecls

open Decimal

/-- The contents of a manifest, with paths as they were written. -/
structure Manifest where
  name : String
  input : Path
  output : Option Path := none
  emit : EmitFormat := .listing
  deriving DecidableEq, Repr

/-- Why a text is no manifest. -/
inductive ManifestError
  /-- The text is no TOML document. -/
  | malformed
  | unknownField (key : String)
  | missingField (key : String)
  | mistyped (found : Found) (expected : String)
  | unknownFormat (name : String)
  /-- A format is neither a name nor a table. -/
  | notAFormat
  /-- A table in place of a format has no key or several. -/
  | emptyFormatTable
  | crowdedFormatTable
  /-- The key of a table in place of a format has contents. -/
  | filledTable
  | filledArray
  | notATable (typeName : String)
  deriving DecidableEq, Repr

namespace Manifest

/-- The keys of a manifest, in the order in which messages list them. -/
def keys : List String := ["name", "input", "output", "emit"]

end Manifest

/-- The sentence that reports a problem. -/
def ManifestError.message : ManifestError → String
  | malformed => "malformed TOML"
  | unknownField key => s!"unknown field `{key}`, " ++ expectedNames Manifest.keys
  | missingField key => s!"missing field `{key}`"
  | mistyped found expected => found.mismatch expected
  | unknownFormat name =>
    s!"unknown variant `{name}`, " ++ expectedNames (EmitFormat.all.map (·.name))
  | notAFormat => "wanted string or table"
  | emptyFormatTable => "wanted exactly 1 element, found 0 elements"
  | crowdedFormatTable => "wanted exactly 1 element, more than 1 element"
  | filledTable => "expected empty table"
  | filledArray => "expected empty array"
  | notATable typeName => s!"expected table, found {typeName}"

namespace Manifest

/-- Doubles are always shown positionally, and halfway between two decimals by the larger. -/
def floatLayout : Layout where
  tie := .up

/-- A float as a message shows it. -/
def floatText : Toml.FloatValue → String
  | .finite negative x => floatLayout.writeDouble negative x
  | .infinite negative => if negative then "-inf" else "inf"
  | .notANumber => "NaN"

/-- How a message describes a value; dates and times count as tables. -/
def found? : Toml.Value → Option Found
  | .string s => some (.string s)
  | .integer n => some (.integer n)
  | .float f => some (.floating (floatText f))
  | .boolean b => some (.boolean b)
  | .dateTime => some .map
  | .array _ => some .sequence
  | .table _ => some .map
  | .noNumber => none

/-- The report of a value in a place where it cannot stand. -/
def refuse (expected : String) (v : Toml.Value) : ManifestError :=
  match found? v with
  | some found => .mistyped found expected
  | none => .malformed

/-- A text, where `expected` says what for. -/
def text (expected : String) : Toml.Value → Except ManifestError String
  | .string s => .ok s
  | v => .error (refuse expected v)

/-- A path. -/
def path (v : Toml.Value) : Except ManifestError Path := Path.mk <$> text "path string" v

/-- The format of this name. -/
def format (name : String) : Except ManifestError EmitFormat :=
  match EmitFormat.ofName? name with
  | some f => .ok f
  | none => .error (.unknownFormat name)

/-- What stands behind the name of a format in a table must be empty. -/
def checkEmpty : Toml.Value → Except ManifestError Unit
  | .table [] => .ok ()
  | .table _ => .error .filledTable
  | .array [] => .ok ()
  | .array _ => .error .filledArray
  | v => .error (.notATable v.typeName)

/-- A format: its name, or a table with its name as only key. -/
def emitValue : Toml.Value → Except ManifestError EmitFormat
  | .string s => format s
  | .table [] => .error .emptyFormatTable
  | .table [(name, v)] => do
    let f ← format name
    checkEmpty v
    return f
  | .table _ => .error .crowdedFormatTable
  | _ => .error .notAFormat

/-- What has been read of a manifest. -/
structure Draft where
  name : Option String := none
  input : Option Path := none
  output : Option Path := none
  emit : Option EmitFormat := none

/-- The draft with one more key. -/
def Draft.read (d : Draft) (key : String) (v : Toml.Value) : Except ManifestError Draft :=
  match key with
  | "name" => do return { d with name := some (← Manifest.text "a string" v) }
  | "input" => do return { d with input := some (← Manifest.path v) }
  | "output" => do return { d with output := some (← Manifest.path v) }
  | "emit" => do return { d with emit := some (← Manifest.emitValue v) }
  | _ => .error (.unknownField key)

/-- The manifest of a draft to which nothing is added any more. -/
def Draft.finish (d : Draft) : Except ManifestError Manifest :=
  match d.name, d.input with
  | none, _ => .error (.missingField "name")
  | _, none => .error (.missingField "input")
  | some name, some input =>
    .ok { name, input, output := d.output, emit := d.emit.getD .listing }

/-- The manifest that the keys of a document make up. -/
def ofEntries (entries : List (String × Toml.Value)) : Except ManifestError Manifest := do
  let sorted := entries.mergeSort fun a b ↦ a.1 ≤ b.1
  let draft ← sorted.foldlM (fun d (key, v) ↦ d.read key v) ({} : Draft)
  draft.finish

/-- The manifest that a text describes. -/
def ofText (content : String) : Except ManifestError Manifest :=
  match Toml.read? content with
  | some entries => ofEntries entries
  | none => .error .malformed

end Manifest

end FlatDecls
