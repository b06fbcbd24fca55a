import Mathlib.Data.List.Flatten
import FlatDecls.Proofs.Flat.ForwardReference

/-!
# Late fields

A field is *late* if its type is the name of a unit and no unit of that name is registered before
the field's structure. The forward references of a register are its late fields in the order of
their places, each once (`Register.forwardReferences_exact`); `Register.lateFields` keeps the places
that the reports themselves do not show.

The target of a late field is the first unit of its name. That is why units at the end of a register
take no late field away: the first unit of a name is the first one for good
(`Register.lateFields_sublist`).
-/

namespace FlatDecls

/-- A forward reference together with the place of its field: the position of the structure, and the
position of the field in it. -/
structure LateField where
  place : Nat × Nat
  reference : ForwardReference

/-- The order of places: by structures, and by fields in one structure. -/
def Precedes : Nat × Nat → Nat × Nat → Prop := Prod.Lex (· < ·) (· < ·)

namespace Register

variable {r : Register} {u : FlatUnit} {f : FlatField} {name : String} {p i : Nat}

/-- Some unit bears the name. -/
def Bears (r : Register) (name : String) : Prop := ∃ v ∈ r.units, v.name = name

/-- Some unit before the position bears the name. -/
def BearsBefore (r : Register) (p : Nat) (name : String) : Prop :=
  ∃ q < p, ∃ v, r.units[q]? = some v ∧ v.name = name

/-- The unit at `t` bears the name, and no unit before does. -/
structure IsFirst (r : Register) (name : String) (t : Nat) : Prop where
  bears : ∃ v, r.units[t]? = some v ∧ v.name = name
  least : ¬ r.BearsBefore t name

/-- At `(p, i)` stands the field `f` of the structure `s`. -/
structure FieldAt (r : Register) (p i : Nat) (s : FlatStructure) (f : FlatField) : Prop where
  structure_at : r.units[p]? = some (.struct s)
  field_at : s.fields[i]? = some f

/-- The forward references of the fields of one unit, with their places. -/
def lateFieldsOf (r : Register) (u : FlatUnit) (p : Nat) : List LateField :=
  u.fields.zipIdx.filterMap fun (f, i) ↦ (r.forwardReference? u p f).map (⟨(p, i), ·⟩)

/-- The forward references of a register, with their places. -/
def lateFields (r : Register) : List LateField :=
  r.units.zipIdx.flatMap fun (u, p) ↦ r.lateFieldsOf u p

/-- The references of the late fields of a unit are those that its fields give rise to. -/
theorem map_reference_lateFieldsOf (r : Register) (u : FlatUnit) (p : Nat) :
    (r.lateFieldsOf u p).map LateField.reference =
      u.fields.filterMap (r.forwardReference? u p) := by
  have fields := List.zipIdx_map_fst 0 u.fields
  rw [lateFieldsOf, List.map_filterMap]
  conv => rhs; rw [← fields, List.filterMap_map]
  simp [Function.comp_def]

/-- Without their places, the late fields are the forward references. -/
theorem map_reference_lateFields (r : Register) :
    r.lateFields.map LateField.reference = r.forwardReferences := by
  simp only [lateFields, forwardReferences, List.map_flatMap, map_reference_lateFieldsOf]

/-! ### First positions -/

/-- The position that the register finds for a name is that of the first unit with this name. -/
theorem firstPosition?_eq_some_iff_isFirst {t : Nat} :
    r.firstPosition? name = some t ↔ r.IsFirst name t := by
  rw [firstPosition?_eq_some_iff]
  constructor
  · rintro ⟨bears, before⟩
    exact ⟨bears, fun ⟨q, earlier, v, hv, named⟩ ↦ before q earlier v hv named⟩
  · rintro ⟨bears, least⟩
    exact ⟨bears, fun q earlier v hv named ↦ least ⟨q, earlier, v, hv, named⟩⟩

/-- A name that a unit bears has a first such unit. -/
theorem exists_isFirst_iff : (∃ t, r.IsFirst name t) ↔ r.Bears name := by
  constructor
  · rintro ⟨t, ⟨v, hv, named⟩, -⟩
    exact ⟨v, List.mem_of_getElem? hv, named⟩
  · rintro ⟨v, mem, rfl⟩
    obtain ⟨q, hq⟩ := List.mem_iff_getElem?.1 mem
    obtain ⟨t, -, first⟩ := exists_firstPosition?_le hq
    exact ⟨t, firstPosition?_eq_some_iff_isFirst.1 first⟩

/-- The first unit of a name comes at a position or later exactly if none comes before. -/
theorem IsFirst.le_iff {t : Nat} (h : r.IsFirst name t) : p ≤ t ↔ ¬ r.BearsBefore p name := by
  constructor
  · rintro le ⟨q, earlier, bears⟩
    exact h.least ⟨q, by omega, bears⟩
  · intro none
    exact Nat.le_of_not_lt fun earlier ↦ none ⟨t, earlier, h.bears⟩

/-! ### What is listed, and where -/

/-- A field is late if its type's name is borne by some unit, but by none in front of its own. -/
theorem mem_lateFields_iff {late : LateField} :
    late ∈ r.lateFields ↔ ∃ p i s f t, r.FieldAt p i s f ∧ ¬ r.BearsBefore p f.typeName ∧
      r.IsFirst f.typeName t ∧ late = ⟨(p, i), ⟨s.name, f.name, f.typeName, p, t⟩⟩ := by
  simp only [lateFields, lateFieldsOf, List.mem_flatMap, List.mem_filterMap, Option.map_eq_some_iff,
    List.mem_zipIdx_iff_getElem?, forwardReference?_eq_some_iff, Prod.exists]
  constructor
  · rintro ⟨u, p, hu, f, i, hf, -, ⟨t, first, le, rfl⟩, rfl⟩
    have first := firstPosition?_eq_some_iff_isFirst.1 first
    cases u with
    | struct s => exact ⟨p, i, s, f, t, ⟨hu, hf⟩, first.le_iff.1 le, first, rfl⟩
    | enum e => cases hf
  · rintro ⟨p, i, s, f, t, ⟨hs, hf⟩, none, first, rfl⟩
    exact ⟨.struct s, p, hs, f, i, hf, _,
      ⟨t, firstPosition?_eq_some_iff_isFirst.2 first, first.le_iff.2 none, rfl⟩, rfl⟩

theorem place_of_mem_lateFieldsOf {late : LateField} (h : late ∈ r.lateFieldsOf u p) :
    late.place.1 = p := by
  obtain ⟨⟨f, i⟩, -, is⟩ := List.mem_filterMap.1 h
  obtain ⟨ref, -, rfl⟩ := Option.map_eq_some_iff.1 is
  rfl

/-- Elements of a list stand in the order of their positions. -/
theorem pairwise_zipIdx {α : Type} (l : List α) : l.zipIdx.Pairwise (·.2 < ·.2) := by
  rw [← List.pairwise_map (f := Prod.snd) (R := (· < ·)), List.zipIdx_map_snd]
  exact List.pairwise_lt_range' 1

/-- The late fields of a unit stand in the order of its fields. -/
theorem pairwise_lateFieldsOf (r : Register) (u : FlatUnit) (p : Nat) :
    (r.lateFieldsOf u p).Pairwise fun a b ↦ Precedes a.place b.place := by
  rw [lateFieldsOf, List.pairwise_filterMap]
  refine (pairwise_zipIdx u.fields).imp fun {a b} earlier late is late' is' ↦ ?_
  obtain ⟨ref, -, rfl⟩ := Option.map_eq_some_iff.1 is
  obtain ⟨ref', -, rfl⟩ := Option.map_eq_some_iff.1 is'
  exact .right _ earlier

/-- The late fields stand in the order of their places. -/
theorem pairwise_lateFields (r : Register) :
    r.lateFields.Pairwise fun a b ↦ Precedes a.place b.place := by
  rw [lateFields, List.pairwise_flatMap]
  refine ⟨fun (u, p) _ ↦ r.pairwise_lateFieldsOf u p, ?_⟩
  refine (pairwise_zipIdx r.units).imp fun {a b} earlier late mem late' mem' ↦ ?_
  have structures : late.place.1 < late'.place.1 := by
    rwa [place_of_mem_lateFieldsOf mem, place_of_mem_lateFieldsOf mem']
  exact Prod.lex_def.2 (.inl structures)

/-- A field is listed if its type is the name of a unit, but of none before its structure. -/
theorem exists_lateField_iff {s : FlatStructure} (here : r.FieldAt p i s f) :
    (∃ late ∈ r.lateFields, late.place = (p, i)) ↔
      r.Bears f.typeName ∧ ¬ r.BearsBefore p f.typeName := by
  constructor
  · rintro ⟨late, mem, place⟩
    obtain ⟨p', i', s', f', t, here', none, first, rfl⟩ := mem_lateFields_iff.1 mem
    obtain ⟨rfl, rfl⟩ := Prod.mk.inj place
    obtain rfl : s = s' := FlatUnit.struct.inj
      (Option.some.inj (here.structure_at.symm.trans here'.structure_at))
    obtain rfl : f = f' := Option.some.inj (here.field_at.symm.trans here'.field_at)
    exact ⟨exists_isFirst_iff.1 ⟨t, first⟩, none⟩
  · rintro ⟨bears, none⟩
    obtain ⟨t, first⟩ := exists_isFirst_iff.2 bears
    exact ⟨_, mem_lateFields_iff.2 ⟨p, i, s, f, t, here, none, first, rfl⟩, rfl⟩

/-- There are as many forward references as there are late fields. -/
theorem exists_latePlaces (r : Register) :
    ∃ places : List (Nat × Nat), places.Nodup ∧
      (∀ p i, (p, i) ∈ places ↔
        ∃ s f, r.FieldAt p i s f ∧ r.Bears f.typeName ∧ ¬ r.BearsBefore p f.typeName) ∧
      places.length = r.forwardReferences.length := by
  refine ⟨r.lateFields.map LateField.place, ?_, fun p i ↦ ?_, ?_⟩
  · rw [List.Nodup, List.pairwise_map]
    refine r.pairwise_lateFields.imp fun {a b} before same ↦ ?_
    rw [same, Precedes, Prod.lex_def] at before
    omega
  · rw [List.mem_map]
    constructor
    · rintro ⟨late, mem, place⟩
      obtain ⟨p', i', s, f, t, here, none, first, rfl⟩ := mem_lateFields_iff.1 mem
      obtain ⟨rfl, rfl⟩ := Prod.mk.inj place
      exact ⟨s, f, here, exists_isFirst_iff.1 ⟨t, first⟩, none⟩
    · rintro ⟨s, f, here, late⟩
      exact (exists_lateField_iff here).2 late
  · rw [← map_reference_lateFields, List.length_map, List.length_map]

/-! ### Validity -/

/-- A register is valid if no field is late. -/
theorem validate_eq_ok_iff : r.validate = .ok () ↔ r.lateFields = [] := by
  rw [validate, ← map_reference_lateFields]
  cases r.lateFields <;> simp

/-- A register is valid if each field whose type is the name of a unit has one before it. -/
theorem valid_iff : r.validate = .ok () ↔
    ∀ p i s f, r.FieldAt p i s f → r.Bears f.typeName → r.BearsBefore p f.typeName := by
  rw [validate_eq_ok_iff, List.eq_nil_iff_forall_not_mem]
  constructor
  · intro none p i s f here bears
    refine Classical.byContradiction fun late ↦ ?_
    obtain ⟨found, mem, -⟩ := (exists_lateField_iff here).2 ⟨bears, late⟩
    exact none found mem
  · intro valid late mem
    obtain ⟨p, i, s, f, t, here, none, first, -⟩ := mem_lateFields_iff.1 mem
    exact none (valid p i s f here (exists_isFirst_iff.1 ⟨t, first⟩))

/-- In an ordered list, the element at the front is the one that precedes all others. -/
theorem exists_cons_iff_of_pairwise {l : List LateField} {late : LateField}
    (h : l.Pairwise fun a b ↦ Precedes a.place b.place) :
    (∃ rest, l = late :: rest) ↔
      late ∈ l ∧ ∀ other ∈ l, other = late ∨ Precedes late.place other.place := by
  constructor
  · rintro ⟨rest, rfl⟩
    refine ⟨List.mem_cons_self, fun other mem ↦ ?_⟩
    exact (List.mem_cons.1 mem).imp_right ((List.pairwise_cons.1 h).1 other)
  · rintro ⟨mem, least⟩
    obtain ⟨first, rest, rfl⟩ := List.exists_cons_of_ne_nil (List.ne_nil_of_mem mem)
    refine ⟨rest, ?_⟩
    rcases List.mem_cons.1 mem with rfl | behind
    · rfl
    rcases least first List.mem_cons_self with rfl | before
    · rfl
    -- each would precede the other
    have after := (List.pairwise_cons.1 h).1 late behind
    rw [Precedes, Prod.lex_def] at before after
    omega

/-- The text that reports a register as invalid is that of the first late field. -/
theorem validate_eq_error_iff {text : String} :
    r.validate.mapError ForwardReference.message = .error text ↔
      ∃ late ∈ r.lateFields, late.reference.message = text ∧
        ∀ other ∈ r.lateFields, other = late ∨ Precedes late.place other.place := by
  have front : r.validate.mapError ForwardReference.message = .error text ↔
      ∃ late, (∃ rest, r.lateFields = late :: rest) ∧ late.reference.message = text := by
    rw [validate, ← map_reference_lateFields]
    cases r.lateFields <;> simp [Except.mapError]
  simp only [front, exists_cons_iff_of_pairwise r.pairwise_lateFields]
  constructor
  · rintro ⟨late, ⟨mem, least⟩, said⟩
    exact ⟨late, mem, said, least⟩
  · rintro ⟨late, mem, said, least⟩
    exact ⟨late, ⟨mem, least⟩, said⟩

/-! ### More units -/

/-- Units that are pushed one by one are appended. -/
theorem foldl_push (r : Register) (us : List FlatUnit) :
    us.foldl push r = ⟨r.units ++ us⟩ := by
  induction us generalizing r with
  | nil => simp
  | cons u us ih => simp [ih]

/-- The first unit of a name remains the first. -/
theorem firstPosition?_append (us : List FlatUnit) {t : Nat}
    (h : r.firstPosition? name = some t) :
    firstPosition? ⟨r.units ++ us⟩ name = some t := by
  rw [firstPosition?] at h ⊢
  rw [List.findIdx?_append, h, Option.some_or]

/-- A field that is late stays so when more units follow: those in front of it do not change. -/
theorem forwardReference?_append (us : List FlatUnit) {ref : ForwardReference}
    (h : r.forwardReference? u p f = some ref) :
    forwardReference? ⟨r.units ++ us⟩ u p f = some ref := by
  obtain ⟨t, first, late, rfl⟩ := forwardReference?_eq_some_iff.1 h
  exact forwardReference?_eq_some_iff.2 ⟨t, firstPosition?_append us first, late, rfl⟩

/-- What one function picks from a list, another picks that agrees with it and picks more. -/
theorem filterMap_sublist {α β : Type} {g h : α → Option β} {l : List α}
    (agree : ∀ x ∈ l, ∀ y, g x = some y → h x = some y) :
    (l.filterMap g).Sublist (l.filterMap h) := by
  induction l with
  | nil => exact .slnil
  | cons x l ih =>
    have ⟨first, others⟩ := List.forall_mem_cons.1 agree
    have rest := ih others
    rw [List.filterMap_cons, List.filterMap_cons]
    cases picked : g x with
    | none =>
      cases h x with
      | none => exact rest
      | some y => exact rest.cons y
    | some y =>
      rw [first y picked]
      exact rest.cons_cons y

/-- More units can only make more fields late. -/
theorem lateFieldsOf_sublist (r : Register) (us : List FlatUnit) (u : FlatUnit) (p : Nat) :
    (r.lateFieldsOf u p).Sublist (lateFieldsOf ⟨r.units ++ us⟩ u p) := by
  refine filterMap_sublist fun (f, i) _ late is ↦ ?_
  obtain ⟨ref, old, rfl⟩ := Option.map_eq_some_iff.1 is
  exact Option.map_eq_some_iff.2 ⟨ref, forwardReference?_append us old, rfl⟩

/-- More units at the end take no late field away and change none, nor the order of any two. -/
theorem lateFields_sublist (r : Register) (us : List FlatUnit) :
    r.lateFields.Sublist (us.foldl push r).lateFields := by
  rw [foldl_push, lateFields, lateFields, List.zipIdx_append, List.flatMap_append]
  refine List.Sublist.trans (List.Sublist.flatMap_right _ ?_) (List.sublist_append_left _ _)
  exact fun (u, p) _ ↦ r.lateFieldsOf_sublist us u p

/-- A register that is not valid does not become so by more units at its end. -/
theorem validate_of_foldl_push (us : List FlatUnit) (h : (us.foldl push r).validate = .ok ()) :
    r.validate = .ok () := by
  rw [validate_eq_ok_iff] at h ⊢
  have sub := r.lateFields_sublist us
  rw [h] at sub
  exact List.sublist_nil.1 sub

/-- The forward references of a register are its late fields, each once and in the order of their
places: the fields whose type is the name of a unit but of none before their structure, each with
the first unit of that name as its target. The register is valid if there are none; otherwise the
text of the first of them is reported, which gives the positions of both units. Units that are
pushed later leave all this as it is, so a register that is not valid never becomes so. -/
theorem forwardReferences_exact (r : Register) :
    r.lateFields.map LateField.reference = r.forwardReferences ∧
    (r.lateFields.Pairwise fun a b ↦ Precedes a.place b.place) ∧
    (∀ p i s f, r.FieldAt p i s f → ((∃ late ∈ r.lateFields, late.place = (p, i)) ↔
      r.Bears f.typeName ∧ ¬ r.BearsBefore p f.typeName)) ∧
    (∀ late ∈ r.lateFields, ∃ p i s f t, r.FieldAt p i s f ∧ r.IsFirst f.typeName t ∧
      late = ⟨(p, i), ⟨s.name, f.name, f.typeName, p, t⟩⟩ ∧
      late.reference.message =
        s!"Field '{s.name}.{f.name}' refers to '{f.typeName}' (unit #{t}), "
          ++ s!"which is not registered before unit #{p}") ∧
    (r.validate = .ok () ↔
      ∀ p i s f, r.FieldAt p i s f → r.Bears f.typeName → r.BearsBefore p f.typeName) ∧
    (∀ text, r.validate.mapError ForwardReference.message = .error text ↔
      ∃ late ∈ r.lateFields, late.reference.message = text ∧
        ∀ other ∈ r.lateFields, other = late ∨ Precedes late.place other.place) ∧
    ∀ us : List FlatUnit, r.lateFields.Sublist (us.foldl push r).lateFields ∧
      ((us.foldl push r).validate = .ok () → r.validate = .ok ()) := by
  refine ⟨r.map_reference_lateFields, r.pairwise_lateFields, fun _ _ _ _ ↦ exists_lateField_iff,
    fun late mem ↦ ?_, valid_iff, fun text ↦ validate_eq_error_iff,
    fun us ↦ ⟨r.lateFields_sublist us, validate_of_foldl_push us⟩⟩
  obtain ⟨p, i, s, f, t, here, -, first, is⟩ := mem_lateFields_iff.1 mem
  exact ⟨p, i, s, f, t, here, first, is, is ▸ rfl⟩

/-- Enumerations in between and a structure that holds itself. -/
example : (Register.mk [.struct ⟨"S", [⟨"e", "E", none⟩, ⟨"t", "T", none⟩], none⟩,
    .enum ⟨"E", [], none⟩,
    .struct ⟨"T", [⟨"e", "E", none⟩, ⟨"self", "T", none⟩], none⟩]).lateFields.map
      (·.place) = [(0, 0), (0, 1), (2, 1)] := by decide

end Register

end FlatDecls
