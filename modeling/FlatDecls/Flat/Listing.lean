import FlatDecls.Flat.Register
import FlatDecls.Text.Lines

/-!
# Listings

The readable form of units. A unit is a block of lines: its documentation, a head, a line for
each field or member with the documentation before it, and a closing brace. Each line ends
with a line feed, and an empty line stands between two units.
-/

namespace FlatDecls

namespace Listing

/-- The blanks before a line at the given depth. -/
def indentation (depth : Nat) : String := "".pushn ' ' (2 * depth)

/-- The lines of a documentation, each behind three slashes. -/
def documentationLines (depth : Nat) (text : Option String) : List String :=
  match text with
  | some text => (Text.lines text).map fun line ↦ indentation depth ++ "/// " ++ line
  | none => []

/-- The lines of a block: documentation, head, contents and closing brace. -/
def block (depth : Nat) (text : Option String) (head : String) (contents : List String) :
    List String :=
  documentationLines depth text ++ [indentation depth ++ head ++ " \x7b"] ++ contents
    ++ [indentation depth ++ "\x7d"]

/-- Lines as text. -/
def ofLines (lines : List String) : String :=
  String.join (lines.map (· ++ "\n"))

end Listing

open Listing

/-- The lines of a field. -/
def FlatField.lines (depth : Nat) (f : FlatField) : List String :=
  documentationLines depth f.documentation ++ [indentation depth ++ f.name ++ ": " ++ f.typeName]

/-- The lines of a structure. -/
def FlatStructure.lines (depth : Nat) (s : FlatStructure) : List String :=
  block depth s.documentation ("struct " ++ s.name) (s.fields.flatMap (·.lines (depth + 1)))

/-- The lines of a constant. -/
def FlatMember.lines (depth : Nat) (m : FlatMember) : List String :=
  documentationLines depth m.documentation
    ++ [indentation depth ++ m.name ++ " = " ++ toString m.value.toInt]

/-- The lines of an enumeration. -/
def FlatEnumeration.lines (depth : Nat) (e : FlatEnumeration) : List String :=
  block depth e.documentation ("enum " ++ e.name) (e.members.flatMap (·.lines (depth + 1)))

/-- The lines of a unit. -/
def FlatUnit.lines (depth : Nat) : FlatUnit → List String
  | struct s => s.lines depth
  | enum e => e.lines depth

/-- A unit as text. -/
def FlatUnit.listing (depth : Nat) (u : FlatUnit) : String := ofLines (u.lines depth)

/-- All units as text, with an empty line between two of them. -/
def Register.listing (depth : Nat) (r : Register) : String :=
  "\n".intercalate (r.units.map (·.listing depth))

end FlatDecls
