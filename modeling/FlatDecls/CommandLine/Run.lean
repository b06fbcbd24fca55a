import FlatDecls.CommandLine.Arguments
import FlatDecls.Declaration.Load
import FlatDecls.Project
import FlatDecls.Compilation

/-!
# A run of the program

Settings come from the options first, then from the manifest of the project, and then from
defaults. The input is compiled before anything is written, so a run that fails before
changes no file. Findings are printed before the units are written.
-/

namespace FlatDecls.CommandLine

/-- What a run prints, and whether it succeeded. The error output is a list of paragraphs,
each printed with a line end. -/
structure Outcome where
  exitCode : UInt32
  output : String := ""
  errors : List String := []
  deriving DecidableEq, Repr

/-! ### Failures -/

/-- A failure with the sentences behind it, the nearest first. -/
structure Failure where
  summary : String
  causes : List String := []
  deriving DecidableEq, Repr

namespace Failure

/-- A text whose later lines are moved to the right by some blanks. -/
def hang (blanks : Nat) (text : String) : String :=
  String.ofList (text.toList.flatMap fun c ↦
    if c = '\n' then '\n' :: List.replicate blanks ' ' else [c])

/-- A number at the right of a column of five characters. -/
def numberColumn (n : Nat) : String :=
  "".pushn ' ' (5 - (toString n).length) ++ toString n

/-- The lines of the causes: one stands alone, several are numbered. -/
def causeLines : List String → List String
  | [cause] => ["    " ++ hang 4 cause]
  | causes =>
    causes.zipIdx.map fun (cause, i) ↦ numberColumn i ++ ": " ++ hang 7 cause

/-- The paragraph that reports a failure. -/
def text (f : Failure) : String :=
  let top := "Error: " ++ f.summary
  if f.causes.isEmpty then top
  else "\n".intercalate ([top, "", "Caused by:"] ++ causeLines f.causes)

end Failure

/-- What lies behind a failed flattening. -/
def flattenCauses (e : FlattenError) : List String :=
  match e with
  | .unnamedType _ _ cause => [e.message, cause.message]
  | _ => [e.message]

/-! ### Settings -/

/-- Where a run reads, where it writes, and in which format. -/
structure Settings where
  input : Path
  output : Option Path
  emit : EmitFormat
  deriving DecidableEq, Repr

/-- Why there are no settings. -/
inductive SettingsError
  | project (e : ProjectError)
  /-- Neither an option nor a manifest names the input. -/
  | noInput
  deriving DecidableEq, Repr

/-- The sentence that reports missing settings. -/
def SettingsError.message : SettingsError → String
  | project e => e.message
  | noInput => "No --input given and no flatgen.toml found"

/-- Each setting by itself: from the option if it is given, else from the project, else the
default. The input has no default. -/
def Options.merge (o : Options) (project : Option Project) : Except SettingsError Settings :=
  match o.input.or (project.map (·.inputPath)) with
  | none => .error .noInput
  | some input =>
    .ok {
      input
      output := o.output.or (project.bind (·.outputPath))
      emit := (o.emit.or (project.map (·.manifest.emit))).getD .listing }

section

variable {m : Type → Type} [Monad m] [FileAccess m]

/-- The project of a run: that of the manifest named by an option, else the one found from the
input, else the one found from the working directory. -/
def Options.project (o : Options) : m (Except ProjectError (Option Project)) := do
  match o.manifest with
  | some manifestPath => return some <$> (← Project.load manifestPath)
  | none =>
    match o.input with
    | some input => Project.discover input
    | none => Project.discover (← FileAccess.workingDirectory)

/-- The settings of a run. -/
def Options.resolve (o : Options) : m (Except SettingsError Settings) := do
  match ← o.project with
  | .error e => return .error (.project e)
  | .ok project => return o.merge project

/-! ### Running -/

/-- The findings of a run as paragraphs, if there are any. -/
def findings (ds : Diagnostics) : List String :=
  if ds.isEmpty then [] else [ds.report, ds.summary]

/-- A run that failed, after printing some paragraphs. -/
def failed (printed : List String) (f : Failure) : Outcome :=
  { exitCode := 1, errors := printed ++ [f.text] }

/-- Makes the directory for a file if it is missing. -/
def makeParent (path : Path) : m (Except Failure Unit) := do
  match path.parent with
  | none => return .ok ()
  | some parent =>
    if parent.isEmpty then return .ok ()
    else
      return (← FileAccess.makeDirectories parent).mapError fun e ↦
        ⟨s!"Failed to create {parent.text}", [e.message]⟩

/-- Writes a text to a file, in a directory that is made if it is missing. -/
def writeOutput (path : Path) (text : String) : m (Except Failure Unit) := do
  match ← makeParent path with
  | .error f => return .error f
  | .ok () =>
    return (← FileAccess.writeText path text).mapError fun e ↦
      ⟨s!"Failed to write {path.text}", [e.message]⟩

/-- Hands over the units of a compilation: to the output file, or printed if there is none. -/
def deliver (s : Settings) (t : Compilation) : m Outcome := do
  let printed := findings t.diagnostics
  let text := t.register.emit s.emit
  match s.output with
  | none => return { exitCode := 0, output := text, errors := printed }
  | some path =>
    match ← writeOutput path text with
    | .ok () => return { exitCode := 0, errors := printed }
    | .error f => return failed printed f

/-- Compiles the input and hands over the result. -/
def compileInput (s : Settings) (denyWarnings : Bool) : m Outcome := do
  let summary := s!"Failed to translate {s.input.text}"
  match ← SourceUnit.load s.input with
  | .error e => return failed [] ⟨summary, [e.message, e.cause]⟩
  | .ok u =>
    match u.compile denyWarnings with
    | .error (.flattening e) => return failed [] ⟨summary, flattenCauses e⟩
    | .error (.warningsDenied ds) =>
      return failed (findings ds)
        ⟨s!"{ds.errors.length} warning(s) denied by --deny-warnings", []⟩
    | .ok t => deliver s t

/-- A run with the given options. -/
def Options.run (o : Options) : m Outcome := do
  match ← o.resolve with
  | .error e => return failed [] ⟨e.message, []⟩
  | .ok s => compileInput s o.denyWarnings

end

/-! ### Fixed texts -/

/-- The program's name and version. -/
def versionText : String := "flatgen 0.1.0-alpha.1\n"

/-- What `--help` prints. -/
def helpText : String :=
  "\n".intercalate
    ["Lowers nested native declarations into flat structure definitions",
     "",
     "Usage: flatgen [OPTIONS]",
     "",
     "Options:",
     "  -i, --input <INPUT>        Declaration tree to translate (JSON); defaults to the " ++
       "manifest's input",
     "  -o, --output <OUTPUT>      Output file; defaults to the manifest's output, then stdout",
     "      --emit <EMIT>          Output format: listing or json",
     "      --manifest <MANIFEST>  Explicit path to a flatgen.toml manifest",
     "  -v, --verbose...           Increase log verbosity (-v info, -vv debug, -vvv trace)",
     "      --deny-warnings        Fail when any warning is produced",
     "  -h, --help                 Print help",
     "  -V, --version              Print version",
     ""]

/-- What is printed when the arguments break the rules. -/
def misuseText : String :=
  "\n".intercalate
    ["error: invalid arguments", "", "Usage: flatgen [OPTIONS]", "",
     "For more information, try '--help'."]

/-- A run with the given arguments. -/
def run {m : Type → Type} [Monad m] [FileAccess m] (arguments : List String) : m Outcome :=
  match Request.ofArguments arguments with
  | .run options => options.run
  | .help => return { exitCode := 0, output := helpText }
  | .version => return { exitCode := 0, output := versionText }
  | .misuse => return { exitCode := 2, errors := [misuseText] }

end FlatDecls.CommandLine
