import FlatDecls.Proofs.Compilation
import FlatDecls.Proofs.Flat.ForwardReference

/-!
# Embedded units and their reports

A field embeds the unit `X` if it is of type `X`, or of an array type whose elements embed it.
A unit that is emitted after a structure that embeds it should be reported. The check compares
names: it sees `X` where the name of a flat field's type is `X` itself. Unrolling takes off only
the outermost dimension, and nothing from a bit-field, so where dimensions are left the name is
`X` with their lengths in brackets, and nothing is reported unless a unit bears just that name
(`SourceUnit.late_embedding_reported_iff`).
-/

namespace FlatDecls

/-! ### Dimensions -/

namespace TypeRef

/-- An array with these lengths, outermost first. -/
def inDimensions (t : TypeRef) : List UInt64 → TypeRef
  | [] => t
  | length :: dims => .array (t.inDimensions dims) (.constant length)

/-- The lengths in brackets, innermost first. -/
def brackets : List UInt64 → String
  | [] => ""
  | length :: dims => brackets dims ++ "[" ++ toString length.toNat ++ "]"

variable (name : String)

@[simp]
theorem nestedBase?_inDimensions (dims : List UInt64) :
    ((named name).inDimensions dims).nestedBase? = none := by
  induction dims with
  | nil => rfl
  | cons length dims ih => exact ih

/-- Dimensions are written behind the name. -/
theorem spelling_inDimensions (dims : List UInt64) :
    ((named name).inDimensions dims).spelling = name ++ brackets dims := by
  induction dims with
  | nil => simp [inDimensions, brackets]
  | cons length dims ih =>
    rw [inDimensions, spelling_array _ (nestedBase?_inDimensions name dims), ih, brackets]
    simp [String.append_assoc, ArraySize.text]

end TypeRef

/-- The dimensions that are left of a field when it is flattened. -/
def Field.dimensionsLeft (f : Field) (dims : List UInt64) : List UInt64 :=
  match f.bitWidth with
  | none => dims.tail
  | some _ => dims

/-- The flat fields of an array of `name` are named after it, with the dimensions that are left. -/
theorem Field.typeName_of_inDimensions {f : Field} {owner name : String} {dims : List UInt64}
    {g : FlatField} (hg : g ∈ f.flatFields owner)
    (type : f.type = (TypeRef.named name).inDimensions dims) :
    g.typeName = name ++ TypeRef.brackets (f.dimensionsLeft dims) := by
  have plain : ∀ i, f.type ≠ .nested i := by
    rintro i h
    cases dims <;> simp [type, TypeRef.inDimensions] at h
  have left : f.flatType = (TypeRef.named name).inDimensions (f.dimensionsLeft dims) := by
    rw [flatType, dimensionsLeft, type]
    cases f.bitWidth <;> cases dims <;> rfl
  rw [typeName_of_mem_flatFields hg plain, left, TypeRef.spelling_inDimensions]

/-! ### Late embeddings -/

namespace SourceUnit

/-- The flat field `g` of the structure at a position comes from a field that embeds `name`, a
unit that is first registered there or later. -/
structure LateEmbedding (u : SourceUnit) (r : Register) (position : Nat) (owner : String)
    (f : Field) (name : String) (dims : List UInt64) (g : FlatField) : Prop where
  source : ∃ b, u.sources[position]? = some (.aggregate b owner) ∧ f ∈ b.fields
  type : f.type = (TypeRef.named name).inDimensions dims
  flat : g ∈ f.flatFields owner
  late : ∃ t, r.firstPosition? name = some t ∧ position ≤ t

/-- A late embedding is reported exactly if no dimension is left of the field, or another unit
that is registered there or later bears the name with the dimensions. -/
theorem late_embedding_reported_iff {u : SourceUnit} {c : Compilation}
    (h : u.compile false = .ok c) {position : Nat} {owner : String} {f : Field} {name : String}
    {dims : List UInt64} {g : FlatField}
    (e : u.LateEmbedding c.register position owner f name dims g) :
    c.diagnostics.entries.filter (·.code = .forwardReference) =
        c.register.forwardReferences.map Diagnostic.forwardReference ∧
      (c.register.Reports position owner g ↔
        f.dimensionsLeft dims = [] ∨
          ∃ t, c.register.firstPosition? (name ++ TypeRef.brackets (f.dimensionsLeft dims)) =
            some t ∧ position ≤ t) := by
  obtain ⟨rfl, -⟩ := eq_compilation_of_compile h
  refine ⟨u.filter_diagnostics_compilation, ?_⟩
  obtain ⟨b, source, hf⟩ := e.source
  have unit : u.compilation.register.units[position]? = some (.struct (b.flat owner)) := by
    simp [compilation, source, Source.toUnit]
  have field : g ∈ (b.flat owner).fields := List.mem_flatMap.2 ⟨f, hf, e.flat⟩
  have reports := Register.reports_iff unit field
  rw [Field.typeName_of_inDimensions e.flat e.type] at reports
  -- without dimensions the name of the type is `name` itself, which is registered late
  refine reports.trans ⟨.inr, ?_⟩
  rintro (none_left | late)
  · obtain ⟨t, first, late⟩ := e.late
    exact ⟨t, by simpa [none_left, TypeRef.brackets] using first, late⟩
  · exact late

/-- A structure with one field, and behind it the unit that the field may embed. -/
def beforeX (f : Field) : SourceUnit where
  aliases :=
    [{ name := "S", target := .aggregate { fields := [f] } },
      { name := "X"
        target := .aggregate { fields := [{ name := "v", type := .primitive .int }] } }]

/-- One dimension is unrolled, and the elements are of type `X`. -/
def row : Field where
  name := "m"
  type := (TypeRef.named "X").inDimensions [2]

theorem row_reported :
    (beforeX row).compile false = .ok (beforeX row).compilation ∧
      (beforeX row).compilation.register.Reports 0 "S" { name := "m1", typeName := "X" } := by
  have embeds : (beforeX row).LateEmbedding (beforeX row).compilation.register 0 "S" row "X" [2]
      { name := "m1", typeName := "X" } :=
    ⟨⟨_, rfl, List.mem_cons_self⟩, rfl, List.mem_cons_of_mem _ List.mem_cons_self,
      ⟨1, rfl, Nat.zero_le 1⟩⟩
  exact ⟨rfl, (late_embedding_reported_iff rfl embeds).2.2 (.inl rfl)⟩

/-- Of two dimensions one is left, and the elements are of type `X[2]`. -/
def square : Field where
  name := "m"
  type := (TypeRef.named "X").inDimensions [2, 2]

/-- The structure holds four units `X` that come after it, and nothing is found. -/
theorem square_not_reported :
    (beforeX square).compile false = .ok (beforeX square).compilation ∧
      (beforeX square).LateEmbedding (beforeX square).compilation.register 0 "S" square "X" [2, 2]
        { name := "m0", typeName := "X[2]" } ∧
      (beforeX square).compilation.diagnostics.entries = [] :=
  ⟨rfl, ⟨⟨_, rfl, List.mem_cons_self⟩, rfl, List.mem_cons_self, ⟨1, rfl, Nat.zero_le 1⟩⟩, rfl⟩

end SourceUnit

end FlatDecls
