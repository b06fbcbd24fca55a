import Mathlib.Data.List.Nodup
import FlatDecls.Proofs.Flattening.Performs
import FlatDecls.Text.Digit

/-!
# Names of flat fields

A field keeps its name when it is flattened, unless it is unrolled: then each of its flat fields has
the name with a number behind it. So the name of a flat field is that of its field, with digits
behind it at most. Two fields of different names can give the same only if one name is the other
with digits behind it, and the other belongs to an array (`Field.name_eq_of_clash`): `a1` of length
one and `a` of length eleven both give `a10`.

Where that is excluded, the flat fields of an aggregate with distinct field names have distinct
names, and are found by them (`Aggregate.flatten_names_distinct`).
-/

namespace FlatDecls

/-! ### Numbered names -/

/-- The name is the base with one or more decimal digits behind it. -/
def Numbers (base name : String) : Prop :=
  ∃ digits : List Char, digits ≠ [] ∧ (∀ c ∈ digits, c.isDigit) ∧
    name.toList = base.toList ++ digits

theorem numbers_iff {base name : String} :
    Numbers base name ↔ base.toList <+: name.toList ∧
      name.toList.drop base.toList.length ≠ [] ∧
        (name.toList.drop base.toList.length).all Char.isDigit := by
  constructor
  · rintro ⟨digits, nonempty, all, split⟩
    rw [split, List.drop_left]
    exact ⟨List.prefix_append _ _, nonempty, List.all_eq_true.2 all⟩
  · rintro ⟨⟨digits, split⟩, nonempty, all⟩
    rw [← split, List.drop_left] at nonempty all
    exact ⟨digits, nonempty, List.all_eq_true.1 all, split.symm⟩

instance (base name : String) : Decidable (Numbers base name) :=
  decidable_of_iff _ numbers_iff.symm

/-- With no more than digits behind the base, a name that is not numbered is the base. -/
theorem eq_of_not_numbers {base name : String} {more : List Char} (digits : ∀ c ∈ more, c.isDigit)
    (split : name.toList = base.toList ++ more) (apart : more ≠ [] → ¬ Numbers base name) :
    base = name := by
  by_cases none : more = []
  · rw [← String.toList_inj, split, none, List.append_nil]
  · exact absurd ⟨more, none, digits, split⟩ (apart none)

namespace Field

/-- An array of constant length is unrolled, unless it is the type of a bit-field. -/
def isUnrolled (f : Field) : Bool :=
  match f.bitWidth, f.type with
  | none, .array _ (.constant _) => true
  | _, _ => false

variable {f g : Field} {owner name : String}

/-- The name of a flat field is that of its field with digits behind it, if there are any because
the field is unrolled. -/
theorem exists_digits_of_mem_names (h : name ∈ (f.flatFields owner).map FlatField.name) :
    ∃ digits : List Char, (∀ c ∈ digits, c.isDigit) ∧ name.toList = f.name.toList ++ digits ∧
      (digits ≠ [] → f.isUnrolled) := by
  rw [flatFields] at h
  split at h
  next element length bits type =>
    rw [List.map_map, List.mem_map] at h
    obtain ⟨k, -, rfl⟩ := h
    refine ⟨Nat.toDigits 10 k, fun c hc ↦ ?_, ?_, fun _ ↦ ?_⟩
    · exact Nat.isDigit_of_mem_toDigits (by omega) (by omega) hc
    · show (f.name ++ k.repr).toList = _
      rw [String.toList_append, Nat.toList_repr]
    · rw [isUnrolled, bits, type]
  next =>
    obtain rfl := List.mem_singleton.1 h
    exact ⟨[], List.forall_mem_nil _, (List.append_nil _).symm, absurd rfl⟩

/-- Names with digits behind them are the same only if one name begins with the other and goes on
with digits. -/
theorem name_eq_of_clash (hf : name ∈ (f.flatFields owner).map FlatField.name)
    (hg : name ∈ (g.flatFields owner).map FlatField.name)
    (apart : f.isUnrolled → ¬ Numbers f.name g.name)
    (apart' : g.isUnrolled → ¬ Numbers g.name f.name) : f.name = g.name := by
  obtain ⟨ds, digits, split, unrolled⟩ := exists_digits_of_mem_names hf
  obtain ⟨es, digits', split', unrolled'⟩ := exists_digits_of_mem_names hg
  obtain ⟨more, long, rfl⟩ | ⟨more, long, rfl⟩ :=
    List.append_eq_append_iff.1 (split.symm.trans split')
  · have numbered (some : more ≠ []) : ¬ Numbers f.name g.name :=
      apart (unrolled (List.append_ne_nil_of_left_ne_nil some _))
    exact eq_of_not_numbers (fun c hc ↦ digits c (List.mem_append_left _ hc)) long numbered
  · have numbered (some : more ≠ []) : ¬ Numbers g.name f.name :=
      apart' (unrolled' (List.append_ne_nil_of_left_ne_nil some _))
    exact (eq_of_not_numbers (fun c hc ↦ digits' c (List.mem_append_left _ hc)) long numbered).symm

variable (f owner)

/-- The flat fields of one field have distinct names. -/
theorem nodup_names_flatFields : ((f.flatFields owner).map FlatField.name).Nodup := by
  rw [flatFields]
  split
  next =>
    rw [List.map_map]
    refine List.nodup_range.map fun i j same ↦ Text.toDigits_injective ?_
    rw [← Nat.toList_repr, ← Nat.toList_repr]
    exact congrArg String.toList ((String.append_right_inj f.name).1 same)
  next => exact List.nodup_singleton _

end Field

/-! ### Flat structures -/

/-- Where names are distinct, a field is found by its name. -/
theorem FlatStructure.field?_of_nodup {s : FlatStructure} {g : FlatField}
    (h : (s.fields.map FlatField.name).Nodup) (hg : g ∈ s.fields) : s.field? g.name = some g := by
  cases found : s.field? g.name with
  | none =>
    have absent := List.find?_eq_none.1 found g hg
    simp at absent
  | some g' =>
    have same : g'.name = g.name := by simpa using List.find?_some found
    rw [List.inj_on_of_nodup_map h (List.mem_of_find?_eq_some found) hg same]

namespace Aggregate

/-- The names of the fields are distinct, and none of them is that of an unrolled field with digits
behind it. -/
structure NamesApart (a : Aggregate) : Prop where
  distinct : (a.fields.map Field.name).Nodup
  unnumbered : ∀ f ∈ a.fields, f.isUnrolled → ∀ g ∈ a.fields, ¬ Numbers f.name g.name

variable {a : Aggregate} {n : String}

theorem NamesApart.nodup_names_flat (h : a.NamesApart) (n : String) :
    ((a.flat n).fields.map FlatField.name).Nodup := by
  have apart := h.distinct
  rw [List.Nodup, List.pairwise_map] at apart
  rw [flat, List.map_flatMap]
  refine List.nodup_flatMap.2 ⟨fun f _ ↦ f.nodup_names_flatFields n, ?_⟩
  refine apart.imp_of_mem fun {f g} hf hg other name inF inG ↦ other ?_
  exact Field.name_eq_of_clash inF inG (fun unrolled ↦ h.unnumbered f hf unrolled g hg)
    (fun unrolled ↦ h.unnumbered g hg unrolled f hf)

/-- If the names of the fields are apart, the flat fields have distinct names, and each of them is
found by its name. -/
theorem flatten_names_distinct {s : FlatStructure} {p : Progress}
    (succeeds : ((a.flatten n).runFrom p).1 = .ok s) (apart : a.NamesApart) :
    (s.fields.map FlatField.name).Nodup ∧ ∀ g ∈ s.fields, s.field? g.name = some g := by
  obtain ⟨-, rfl⟩ := ((a.performs_flatten n).runFrom_eq_ok_iff p).1 succeeds
  have distinct := apart.nodup_names_flat n
  exact ⟨distinct, fun g hg ↦ FlatStructure.field?_of_nodup distinct hg⟩

/-- Two arrays of which one name begins with the other, but goes on with more than digits; an array
without elements; and a bit-field whose name with a digit behind it is taken. -/
def samples : Aggregate where
  fields :=
    [{ name := "v", type := .array (.primitive .int) (.constant 12) },
      { name := "v1_", type := .array (.primitive .int) (.constant 2) },
      { name := "w", type := .array (.primitive .int) (.constant 0) },
      { name := "x", type := .array (.primitive .int) (.constant 3), bitWidth := some 1 },
      { name := "x1", type := .primitive .int }]

theorem flatten_names_distinct_samples :
    samples.NamesApart ∧ ((samples.flatten "S").runFrom {}).1 = .ok (samples.flat "S") ∧
      (samples.flat "S").fields.map FlatField.name =
        ["v0", "v1", "v2", "v3", "v4", "v5", "v6", "v7", "v8", "v9", "v10", "v11", "v1_0", "v1_1",
          "x", "x1"] ∧
      ((samples.flat "S").fields.map FlatField.name).Nodup ∧
      ∀ g ∈ (samples.flat "S").fields, (samples.flat "S").field? g.name = some g := by
  have apart : samples.NamesApart := ⟨by decide, by decide⟩
  have succeeds : ((samples.flatten "S").runFrom {}).1 = .ok (samples.flat "S") := rfl
  exact ⟨apart, succeeds, rfl, flatten_names_distinct succeeds apart⟩

end Aggregate

end FlatDecls
