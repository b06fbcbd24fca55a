import FlatDecls.Declaration.Basic
import FlatDecls.Proofs.Json.Integers
import FlatDecls.Proofs.Json.Tree

/-!
# The shapes of values in a description

A document that describes a source unit is made of values of a few shapes, and the shape of a value
says which of its members are known and what shapes their values have. Values of other members are
ignored. What is read of a document are the values that can be reached without entering an ignored
one (`Reaches`): they are what limits on nesting count (`OpensAtMost`), and what must be in order
for a document to be accepted (`Tidy`).
-/

namespace FlatDecls

open Json

/-! ### Shapes -/

/-- What a value in a description of a source unit may be. -/
inductive Shape
  | sourceUnit
  | typeAlias
  | aliasTarget
  | declaration
  | aggregate
  | field
  | enumeration
  | enumerator
  | typeRef
  | arrayType
  | arraySize
  | list (item : Shape)
  /-- One of some names. -/
  | oneOf (names : List String)
  | unsigned (bits : Nat)
  | signed (bits : Nat)
  /-- A text, or null. -/
  | text

namespace Shape

/-- The known members of an object of this shape in the order of its array form, or the names of the
cases of a variant, each with the shape of its value. -/
def members : Shape → List (String × Shape)
  | sourceUnit => [("declarations", list declaration), ("aliases", list typeAlias)]
  | typeAlias => [("name", text), ("target", aliasTarget)]
  | aliasTarget => [("aggregate", aggregate), ("type", typeRef)]
  | declaration => [("aggregate", aggregate), ("enumeration", enumeration)]
  | aggregate =>
    [("name", text), ("kind", oneOf ["struct", "union"]), ("fields", list field),
     ("declarations", list declaration), ("documentation", text)]
  | field =>
    [("name", text), ("ty", typeRef), ("bit_width", unsigned 32), ("documentation", text)]
  | enumeration => [("name", text), ("members", list enumerator), ("documentation", text)]
  | enumerator => [("name", text), ("value", signed 64), ("documentation", text)]
  | typeRef =>
    [("primitive", oneOf (Primitive.all.map Primitive.name)), ("pointer", typeRef),
     ("array", arrayType), ("nested", unsigned 64), ("named", text)]
  | arrayType => [("element", typeRef), ("size", arraySize)]
  | arraySize => [("constant", unsigned 64), ("incomplete", text), ("variable", text)]
  | oneOf names => names.map (·, text)
  | _ => []

/-- The shape of the value of a known member. -/
def member? (s : Shape) (key : String) : Option Shape :=
  (s.members.find? (·.1 == key)).map Prod.snd

/-- The shape of an item of an array. -/
def item (s : Shape) (i : Nat) : Shape :=
  match s with
  | list s => s
  | s => (s.members[i]?).elim text Prod.snd

/-- Is the integer in the range of the numbers of this shape? -/
def Holds (i : Int) : Shape → Prop
  | unsigned bits => fitsUnsigned bits i
  | signed bits => fitsSigned bits i
  | _ => False

end Shape

/-! ### What is read of a value -/

/-- Reading a value of some shape reaches a value of some shape inside so many containers. -/
inductive Reaches : Shape → Node → Nat → Shape → Node → Prop
  | self (s : Shape) (n : Node) : Reaches s n 0 s n
  | item {s t : Shape} {items : List Node} {n m : Node} {i k : Nat} (stands : items[i]? = some n)
      (inner : Reaches (s.item i) n k t m) : Reaches s (.array items) (k + 1) t m
  | member {s t u : Shape} {members : List Member} {key : String} {n m : Node} {k : Nat}
      (stands : .pair (.name key) n ∈ members) (known : s.member? key = some u)
      (inner : Reaches u n k t m) : Reaches s (.object members) (k + 1) t m

variable {s t : Shape} {n m : Node} {b k : Nat} {items : List Node} {members : List Member}

theorem reaches_atom_iff {a : Atom} :
    Reaches s (.atom a) k t m ↔ k = 0 ∧ t = s ∧ m = .atom a := by
  constructor
  · rintro ⟨⟩
    exact ⟨rfl, rfl, rfl⟩
  · rintro ⟨rfl, rfl, rfl⟩
    exact .self _ _

/-! ### Nesting -/

/-- Is the value an array or an object? -/
def Json.Node.IsContainer : Node → Prop
  | .array _ => True
  | .object _ => True
  | _ => False

/-- No more containers than these are open at once, ignored values not counted. -/
def OpensAtMost (b : Nat) (s : Shape) (n : Node) : Prop :=
  ∀ k t m, Reaches s n k t m → m.IsContainer → k < b

@[simp]
theorem opensAtMost_atom {a : Atom} : OpensAtMost b s (.atom a) := by
  intro k t m reached container
  obtain ⟨rfl, rfl, rfl⟩ := reaches_atom_iff.1 reached
  exact container.elim

theorem not_opensAtMost_zero (h : n.IsContainer) : ¬ OpensAtMost 0 s n :=
  fun most ↦ absurd (most 0 s n (.self s n) h) (Nat.lt_irrefl 0)

theorem opensAtMost_array_iff : OpensAtMost (b + 1) s (.array items) ↔
    ∀ i n, items[i]? = some n → OpensAtMost b (s.item i) n := by
  constructor
  · intro most i n stands k t m reached container
    exact Nat.lt_of_succ_lt_succ (most (k + 1) t m (.item stands reached) container)
  · rintro most k t m (_ | ⟨stands, reached⟩) container
    · exact Nat.succ_pos b
    · exact Nat.succ_lt_succ (most _ _ stands _ _ _ reached container)

theorem opensAtMost_object_iff : OpensAtMost (b + 1) s (.object members) ↔
    ∀ key n t, .pair (.name key) n ∈ members → s.member? key = some t → OpensAtMost b t n := by
  constructor
  · intro most key n t stands known k u m reached container
    exact Nat.lt_of_succ_lt_succ (most (k + 1) u m (.member stands known reached) container)
  · rintro most k t m (_ | _ | ⟨stands, known, reached⟩) container
    · exact Nat.succ_pos b
    · exact Nat.succ_lt_succ (most _ _ _ stands known _ _ _ reached container)

/-! ### Order -/

/-- The value of a member with this key. -/
def Json.Member.value? (key : String) : Member → Option Node
  | .pair (.name name) n => if name = key then some n else none
  | _ => none

/-- The values of the members with this key. -/
def Json.valuesOf (key : String) (members : List Member) : List Node :=
  members.filterMap (Member.value? key)

/-- A value that a reader of values of this shape could take: a number is an integer in the range of
the shape, a string stands for a text, and no known member is repeated. -/
def Json.Node.Regular (s : Shape) : Node → Prop
  | .atom (.number m) => ∃ i, m.Denotes i ∧ s.Holds i
  | .atom (.loneSurrogate _) => False
  | .object members => ∀ key, (s.member? key).isSome → (valuesOf key members).length ≤ 1
  | _ => True

/-- All that is read of a value is in order, and the rest is there. -/
structure Tidy (s : Shape) (n : Node) : Prop where
  whole : n.Whole
  regular : ∀ k t m, Reaches s n k t m → m.Regular t

theorem tidy_atom {a : Atom} (h : (Node.atom a).Regular s) : Tidy s (.atom a) := by
  refine ⟨Node.whole_atom a, fun k t m reached ↦ ?_⟩
  obtain ⟨rfl, rfl, rfl⟩ := reaches_atom_iff.1 reached
  exact h

theorem tidy_array (h : ∀ i n, items[i]? = some n → Tidy (s.item i) n) : Tidy s (.array items) := by
  refine ⟨Node.whole_array_iff.2 fun n hn ↦ ?_, ?_⟩
  · obtain ⟨i, stands⟩ := List.mem_iff_getElem?.1 hn
    exact (h i n stands).whole
  · rintro k t m (_ | ⟨stands, reached⟩)
    · trivial
    · exact (h _ _ stands).regular _ _ _ reached

theorem tidy_object (named : ∀ m ∈ members, ∃ key n, m = .pair key n ∧ n.Whole)
    (once : ∀ key, (s.member? key).isSome → (valuesOf key members).length ≤ 1)
    (h : ∀ key n t, .pair (.name key) n ∈ members → s.member? key = some t → Tidy t n) :
    Tidy s (.object members) := by
  refine ⟨Node.whole_object_iff.2 named, ?_⟩
  rintro k t m (_ | _ | ⟨stands, known, reached⟩)
  · exact once
  · exact (h _ _ _ stands known).regular _ _ _ reached

end FlatDecls
