import FlatDecls.Declaration.Naming

/-!
# Names of types as text

Naming a type fails exactly when the chain of pointers and arrays ends in a nested declaration,
and says which one (`typeName_eq`). So what remains of a naming besides its failure is a text:
`spelling`, which is the name where there is one.
-/

namespace FlatDecls.TypeRef

/-- The name of a type as text; no text where the type has no name. -/
def spelling (t : TypeRef) : String :=
  match t.typeName with
  | .ok name => name
  | .error _ => ""

theorem spelling_of_typeName {t : TypeRef} {name : String} (h : t.typeName = .ok name) :
    t.spelling = name := by
  rw [spelling, h]

/-- Naming fails exactly at a nested base, and otherwise gives the spelling. -/
theorem typeName_eq (t : TypeRef) :
    t.typeName =
      match t.nestedBase? with
      | some i => .error ⟨i⟩
      | none => .ok t.spelling := by
  induction t with
  | primitive p => rfl
  | named n => rfl
  | nested i => rfl
  | pointer t ih =>
    rw [nestedBase?]
    cases h : t.nestedBase? with
    | none =>
      rw [h] at ih
      have named : t.pointer.typeName = .ok (t.spelling ++ "*") := by rw [typeName, ih]; rfl
      rw [spelling_of_typeName named, named]
    | some i =>
      rw [h] at ih
      rw [typeName, ih]
      rfl
  | array t size ih =>
    rw [nestedBase?]
    cases h : t.nestedBase? with
    | none =>
      rw [h] at ih
      have named : (t.array size).typeName = .ok (t.spelling ++ "[" ++ size.text ++ "]") := by
        rw [typeName, ih]
        rfl
      rw [spelling_of_typeName named, named]
    | some i =>
      rw [h] at ih
      rw [typeName, ih]
      rfl

/-- A type without a nested base has its spelling as its name. -/
theorem typeName_of_nestedBase?_eq_none {t : TypeRef} (h : t.nestedBase? = none) :
    t.typeName = .ok t.spelling := by
  rw [typeName_eq, h]

@[simp]
theorem spelling_named (n : String) : (named n).spelling = n := rfl

theorem spelling_pointer {t : TypeRef} (h : t.nestedBase? = none) :
    t.pointer.spelling = t.spelling ++ "*" := by
  apply spelling_of_typeName
  rw [typeName, typeName_of_nestedBase?_eq_none h]
  rfl

theorem spelling_array {t : TypeRef} (size : ArraySize) (h : t.nestedBase? = none) :
    (t.array size).spelling = t.spelling ++ "[" ++ size.text ++ "]" := by
  apply spelling_of_typeName
  rw [typeName, typeName_of_nestedBase?_eq_none h]
  rfl

end FlatDecls.TypeRef
