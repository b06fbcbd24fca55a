import FlatDecls.Declaration.Lookup
import FlatDecls.Flattening.Aggregate

/-!
# Flattening source units

Each alias in turn: the aggregate that it is bound to is registered under the alias's name. An
alias for a name that is not declared at all is reported; other aliases are passed over.
-/

namespace FlatDecls

namespace SourceUnit

/-- The step for one alias. -/
def flattenAlias (u : SourceUnit) (a : Alias) : Flatten Unit :=
  match u.aliasedAggregate? a with
  | some aggregate => do
    let _ ← aggregate.register a.name
  | none =>
    match a.target with
    | .type (.named target) =>
      if u.declares target then .log (.skippedAlias a.name)
      else do
        .log (.undefinedAlias a.name target)
        .report (.aliasSkipped a.name target)
    | _ => .log (.skippedAlias a.name)

/-- Logs that all aliases are done, with what has been added so far. -/
def logFinished : Flatten Unit := do
  let p ← get
  .log (.finished p.register.size p.diagnostics.size)

/-- All aliases of a source unit, in order. -/
def flatten (u : SourceUnit) : Flatten Unit := do
  u.aliases.forM u.flattenAlias
  logFinished

end SourceUnit

end FlatDecls
