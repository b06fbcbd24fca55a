import FlatDecls.Declaration.Basic

/-!
# Names of types

A type reference is written with its base first and one suffix per layer, innermost layer
first: `*` for a pointer, `[N]`, `[]` or `[*]` for an array. A reference to a nested
declaration has no name of its own, because that declaration gets one only when the field
that uses it is flattened; so naming fails exactly when the chain of pointers and arrays
ends in such a reference.
-/

namespace FlatDecls

/-- A type reference that cannot be named: it ends in the nested declaration `index`. -/
structure UnnamedType where
  index : UInt64
  deriving DecidableEq, Repr

/-- The sentence that reports an unnamed type. -/
def UnnamedType.message (e : UnnamedType) : String :=
  s!"nested declaration #{e.index.toNat} can only be used directly as a field type"

namespace TypeRef

/-- The nested declaration at the end of a chain of pointers and arrays. -/
def nestedBase? : TypeRef → Option UInt64
  | primitive _ => none
  | pointer t => t.nestedBase?
  | array t _ => t.nestedBase?
  | nested i => some i
  | named _ => none

/-- The written name of a type. -/
def typeName : TypeRef → Except UnnamedType String
  | primitive p => .ok p.name
  | pointer t => do return (← t.typeName) ++ "*"
  | array t size => do return (← t.typeName) ++ "[" ++ size.text ++ "]"
  | nested i => .error ⟨i⟩
  | named n => .ok n

end TypeRef

end FlatDecls
