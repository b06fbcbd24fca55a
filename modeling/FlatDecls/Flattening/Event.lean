import FlatDecls.Flat.Register

/-!
# The log of a run

What a run reports about its own steps, one event for each step in the order of the steps.
Every kind of event has a fixed level.
-/

namespace FlatDecls

/-- How much detail an event adds. -/
inductive Level
  | info
  | debug
  | trace
  deriving DecidableEq, Repr

/-- The name of a level. -/
def Level.name : Level → String
  | info => "INFO"
  | debug => "DEBUG"
  | trace => "TRACE"

/-- A step of a run. -/
inductive Event
  /-- An aggregate is about to be flattened. -/
  | aggregate (displayName assignedName : String) (fields : Nat)
  /-- A nested enumeration is about to be registered. -/
  | enumeration (assignedName : String)
  | field (owner field typeName : String)
  | unrolled (owner field element : String) (length : Nat)
  | bitField (owner field : String) (width : Nat)
  | undefinedAlias (name target : String)
  | skippedAlias (name : String)
  /-- All aliases of a source unit are done. -/
  | finished (units diagnostics : Nat)
  | forwardReference (r : ForwardReference)
  | compiled (aliases units : Nat)
  deriving DecidableEq, Repr

namespace Event

/-- The level of an event. -/
def level : Event → Level
  | aggregate .. => .debug
  | enumeration .. => .debug
  | field .. => .trace
  | unrolled .. => .trace
  | bitField .. => .debug
  | undefinedAlias .. => .debug
  | skippedAlias .. => .trace
  | finished .. => .debug
  | forwardReference .. => .debug
  | compiled .. => .info

/-- The line that reports an event. -/
def message : Event → String
  | aggregate display assigned n =>
    s!"Lowering aggregate '{display}' as '{assigned}' ({n} fields)"
  | enumeration assigned => s!"Lowering nested enumeration as '{assigned}'"
  | field o f t => s!"  {o}.{f}: {t}"
  | unrolled o f t n => s!"  {o}.{f}: {t}[{n}] unrolled"
  | bitField o f w => s!"Bit-field '{o}.{f}' ({w} bits) lowered as a plain field"
  | undefinedAlias a t => s!"Alias '{a}' names undefined '{t}'"
  | skippedAlias a => s!"Skipping non-aggregate alias '{a}'"
  | finished u d => s!"Translation unit lowered: {u} units, {d} diagnostics"
  | forwardReference r => r.message
  | compiled a u => s!"Translated {a} aliases into {u} units"

end Event

end FlatDecls
