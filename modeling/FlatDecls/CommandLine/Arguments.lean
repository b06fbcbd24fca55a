import FlatDecls.Emission
import FlatDecls.Files.Path

/-!
# Command-line arguments

Options have a long and perhaps a short form. A value follows its option as an argument of its
own, behind an equals sign, or right behind a short form; short forms without value can share
an argument. Only `--verbose` may be repeated, values are not empty, and an argument that
begins with a dash and goes on is never taken for the value of the option before it. There
are no arguments but options. The first argument that decides the outcome decides it: a
violation, or a request for the help text or the version.
-/

namespace FlatDecls.CommandLine

/-- What the options of a run say. -/
structure Options where
  input : Option Path := none
  output : Option Path := none
  emit : Option EmitFormat := none
  manifest : Option Path := none
  verbosity : Nat := 0
  denyWarnings : Bool := false
  deriving DecidableEq, Repr

/-- What the arguments ask for. -/
inductive Request
  | run (options : Options)
  | help
  | version
  /-- The arguments break the rules. -/
  | misuse
  deriving DecidableEq, Repr

/-- An option that takes a value. -/
inductive Setting
  | input
  | output
  | emit
  | manifest
  deriving DecidableEq, Repr

/-- An option of the command line. -/
inductive Switch
  | setting (s : Setting)
  | verbose
  | denyWarnings
  | help
  | version
  deriving DecidableEq, Repr

/-- The option with this long form. -/
def longOption? : String → Option Switch
  | "input" => some (.setting .input)
  | "output" => some (.setting .output)
  | "emit" => some (.setting .emit)
  | "manifest" => some (.setting .manifest)
  | "verbose" => some .verbose
  | "deny-warnings" => some .denyWarnings
  | "help" => some .help
  | "version" => some .version
  | _ => none

/-- The option with this short form. -/
def shortOption? : Char → Option Switch
  | 'i' => some (.setting .input)
  | 'o' => some (.setting .output)
  | 'v' => some .verbose
  | 'h' => some .help
  | 'V' => some .version
  | _ => none

/-- An outcome that is settled, or options to go on with. -/
abbrev Progress := Except Request Options

/-- A path argument; the empty text is none. -/
def pathValue (text : String) : Except Request Path :=
  if text.isEmpty then .error .misuse else .ok ⟨text⟩

/-- Gives an option its value, which it must not have yet. -/
def set (o : Options) (s : Setting) (value : String) : Progress :=
  match s with
  | .input =>
    if o.input.isSome then .error .misuse
    else do return { o with input := some (← pathValue value) }
  | .output =>
    if o.output.isSome then .error .misuse
    else do return { o with output := some (← pathValue value) }
  | .manifest =>
    if o.manifest.isSome then .error .misuse
    else do return { o with manifest := some (← pathValue value) }
  | .emit =>
    match EmitFormat.ofName? value with
    | some f => if o.emit.isSome then .error .misuse else .ok { o with emit := some f }
    | none => .error .misuse

/-- The effect of an option without a value. -/
def raise (o : Options) : Switch → Progress
  | .setting _ => .error .misuse
  | .verbose => .ok { o with verbosity := o.verbosity + 1 }
  | .denyWarnings =>
    if o.denyWarnings then .error .misuse else .ok { o with denyWarnings := true }
  | .help => .error .help
  | .version => .error .version

/-- What a group of short forms leaves to the next argument. -/
structure Group where
  options : Options
  /-- An option whose value has not come yet. -/
  waiting : Option Setting := none

/-- A group of short forms behind its dash. -/
def shortGroup (o : Options) : List Char → Except Request Group
  | [] => .ok ⟨o, none⟩
  | c :: rest =>
    match shortOption? c with
    | none => .error .misuse
    | some (.setting s) =>
      match rest with
      | [] => .ok ⟨o, some s⟩
      | '=' :: value => do return ⟨← set o s (String.ofList value), none⟩
      | value => do return ⟨← set o s (String.ofList value), none⟩
    | some flag => do shortGroup (← raise o flag) rest

/-- A long form behind its dashes. -/
def longForm (o : Options) (cs : List Char) : Except Request Group :=
  let name := String.ofList (cs.takeWhile (· ≠ '='))
  match longOption? name, cs.dropWhile (· ≠ '=') with
  | none, _ => .error .misuse
  | some (.setting s), [] => .ok ⟨o, some s⟩
  | some (.setting s), _ :: value => do return ⟨← set o s (String.ofList value), none⟩
  | some flag, [] => do return ⟨← raise o flag, none⟩
  | some _, _ :: _ => .error .misuse

/-- The form of an argument. -/
inductive Form
  /-- Two dashes alone: no options follow. -/
  | separator
  | long (rest : List Char)
  | short (rest : List Char)
  | plain
  deriving DecidableEq, Repr

/-- The form of an argument; a single dash is a plain one. -/
def form (argument : String) : Form :=
  match argument.toList with
  | ['-', '-'] => .separator
  | '-' :: '-' :: rest => .long rest
  | ['-'] => .plain
  | '-' :: rest => .short rest
  | _ => .plain

/-- What the arguments ask for, after those that made the group. -/
def readFrom (g : Group) : List String → Except Request Options
  | [] => if g.waiting.isSome then .error .misuse else .ok g.options
  | argument :: rest =>
    match form argument, g.waiting with
    | .plain, some s => do readFrom ⟨← set g.options s argument, none⟩ rest
    | .plain, none => .error .misuse
    | _, some _ => .error .misuse
    | .separator, none => if rest.isEmpty then .ok g.options else .error .misuse
    | .long cs, none => do readFrom (← longForm g.options cs) rest
    | .short cs, none => do readFrom (← shortGroup g.options cs) rest

/-- What the arguments ask for. -/
def Request.ofArguments (arguments : List String) : Request :=
  match readFrom ⟨{}, none⟩ arguments with
  | .ok options => .run options
  | .error request => request

end FlatDecls.CommandLine
