import FlatDecls.Proofs.Flattening.Address
import FlatDecls.Proofs.Flattening.Performs

/-!
# When flattening fails

A field *offends* in one of three ways: its outermost type is an array of open size, it refers to
a declaration that its owner does not have, or a nested declaration stands below its pointers and
arrays. Registering an aggregate fails exactly if a field offends that is reached through nested
aggregates, and the failure is that of the first of them in depth-first order
(`register_fails_iff_offends`). The order is that of addresses.
-/

namespace FlatDecls

/-- A field that is an array of open size first. The type of a bit-field may be one. -/
def Site.OpenArray (s : Site) (size : ArraySize) : Prop :=
  s.field.bitWidth = none ∧ (∃ element, s.field.type = .array element size) ∧
    (size = .incomplete ∨ size = .variableLength)

/-- The ways in which a field cannot be flattened, each with the failure that reports it. -/
inductive Site.Offends : Site → FlattenError → Prop
  | unsupportedArray {s : Site} {size : ArraySize} (isOpen : s.OpenArray size) :
      Offends s (.unsupportedArray s.assigned s.field.name size)
  | danglingNested {s : Site} {i : UInt64} (type : s.field.type = .nested i)
      (dangling : s.owner.declarations.length ≤ i.toNat) :
      Offends s (.danglingNested s.assigned s.field.name i s.owner.declarations.length)
  /-- A chain of pointers and arrays ends in a nested declaration. -/
  | unnamedType {s : Site} {i : UInt64} (chain : s.field.type.nestedBase? = some i)
      (indirect : s.field.type ≠ .nested i) (sized : ∀ size, ¬ s.OpenArray size) :
      Offends s (.unnamedType s.assigned s.field.name ⟨i⟩)

namespace Site

variable {s : Site} {e : FlattenError}

theorem singleOffence?_eq_some_iff :
    s.singleOffence? = some e ↔
      (∃ i, s.field.type = .nested i ∧ s.owner.declarations.length ≤ i.toNat ∧
        e = .danglingNested s.assigned s.field.name i s.owner.declarations.length) ∨
      ∃ i, s.field.type ≠ .nested i ∧ s.field.type.nestedBase? = some i ∧
        e = .unnamedType s.assigned s.field.name ⟨i⟩ := by
  rw [singleOffence?]
  cases s.field.type with
  | nested i =>
    have direct (j : UInt64) (h : TypeRef.nested i ≠ .nested j) : i ≠ j := fun same ↦ h (same ▸ rfl)
    simp only [Option.ite_none_right_eq_some, Option.some.injEq, TypeRef.nestedBase?]
    constructor
    · rintro ⟨dangling, rfl⟩
      exact .inl ⟨i, rfl, dangling, rfl⟩
    · rintro (⟨j, ⟨⟩, dangling, rfl⟩ | ⟨j, indirect, same, -⟩)
      · exact ⟨dangling, rfl⟩
      · exact absurd same (direct j indirect)
  | _ => simp only [namingOffence?, Option.map_eq_some_iff]; simp [eq_comm]

/-- An array of open size offends before its elements are looked at. -/
theorem offence?_of_openArray {size : ArraySize} (h : s.OpenArray size) :
    s.offence? = some (.unsupportedArray s.assigned s.field.name size) := by
  obtain ⟨bits, ⟨element, type⟩, rfl | rfl⟩ := h <;> rw [offence?, bits, type]

/-- An array of constant length offends like a field that is not unrolled. -/
theorem offence?_of_not_openArray (h : ∀ size, ¬ s.OpenArray size) :
    s.offence? = s.singleOffence? := by
  rw [offence?]
  split
  next type =>
    rw [singleOffence?, type]
    rfl
  next element size notConstant bits type =>
    cases size with
    | constant length => exact absurd rfl (notConstant length)
    | incomplete => exact absurd ⟨bits, ⟨element, type⟩, .inl rfl⟩ (h .incomplete)
    | variableLength => exact absurd ⟨bits, ⟨element, type⟩, .inr rfl⟩ (h .variableLength)
  next => rfl

/-- The failure at a field reports one of the three ways to offend. -/
theorem offends_iff : s.Offends e ↔ s.offence? = some e := by
  constructor
  · rintro (isOpen | ⟨type, dangling⟩ | ⟨chain, indirect, sized⟩)
    · exact offence?_of_openArray isOpen
    · rw [offence?_of_not_openArray (by simp [OpenArray, type]), singleOffence?_eq_some_iff]
      exact .inl ⟨_, type, dangling, rfl⟩
    · rw [offence?_of_not_openArray sized, singleOffence?_eq_some_iff]
      exact .inr ⟨_, indirect, chain, rfl⟩
  · intro h
    by_cases isOpen : ∃ size, s.OpenArray size
    · obtain ⟨size, isOpen⟩ := isOpen
      obtain rfl := Option.some.inj ((offence?_of_openArray isOpen).symm.trans h)
      exact .unsupportedArray isOpen
    · have sized : ∀ size, ¬ s.OpenArray size := fun size hs ↦ isOpen ⟨size, hs⟩
      rw [offence?_of_not_openArray sized, singleOffence?_eq_some_iff] at h
      rcases h with ⟨i, type, dangling, rfl⟩ | ⟨i, indirect, chain, rfl⟩
      · exact .danglingNested type dangling
      · exact .unnamedType chain indirect sized

/-- Below pointers and arrays, only a nested declaration offends: open sizes there do not. -/
theorem Offends.openArray (h : s.Offends e) (plain : s.field.type.nestedBase? = none) :
    ∃ size, s.OpenArray size := by
  rcases h with isOpen | ⟨type, -⟩ | ⟨chain, -, -⟩
  · exact ⟨_, isOpen⟩
  · simp [type, TypeRef.nestedBase?] at plain
  · simp [chain] at plain

end Site

namespace Aggregate

/-- Registering an aggregate fails exactly if a field offends that has an address in it. The
failure is that of the field with the least address among those that offend. Of a field whose
type does not end in a nested declaration only the outermost size matters. -/
theorem register_fails_iff_offends (a : Aggregate) (assigned : String) (p : Progress) :
    ((∃ e, ((a.register assigned).runFrom p).1 = .error e) ↔
      ∃ address s e, a.FieldAt assigned address s ∧ s.Offends e) ∧
    (∀ e, ((a.register assigned).runFrom p).1 = .error e ↔
      ∃ (address : Address) (s : Site), a.FieldAt assigned address s ∧ s.Offends e ∧
        ∀ address' s' e', a.FieldAt assigned address' s' → s'.Offends e' →
          address.AtOrBefore address') ∧
    ∀ s : Site, s.field.type.nestedBase? = none →
      ((∃ e, s.Offends e) ↔ ∃ size, s.OpenArray size) := by
  have first (e : FlattenError) : ((a.register assigned).runFrom p).1 = .error e ↔
      ∃ (address : Address) (s : Site), a.FieldAt assigned address s ∧ s.Offends e ∧
        ∀ address' s' e', a.FieldAt assigned address' s' → s'.Offends e' →
          address.AtOrBefore address' := by
    rw [(a.performs_register assigned).runFrom_eq_error_iff, offence?_steps_eq_some_iff]
    simp only [FirstOffence, Site.offends_iff]
    constructor
    · rintro ⟨address, ⟨s, hs, own⟩, least⟩
      exact ⟨address, s, hs, own, fun address' s' e' hs' own' ↦
        least address' s' hs' (by simp [own'])⟩
    · rintro ⟨address, s, hs, own, least⟩
      refine ⟨address, ⟨s, hs, own⟩, fun address' s' hs' offends ↦ ?_⟩
      obtain ⟨e', own'⟩ := Option.ne_none_iff_exists'.1 offends
      exact least address' s' e' hs' own'
  refine ⟨⟨?_, ?_⟩, first, fun s plain ↦ ⟨?_, ?_⟩⟩
  · rintro ⟨e, h⟩
    obtain ⟨address, s, hs, offends, -⟩ := (first e).1 h
    exact ⟨address, s, e, hs, offends⟩
  · rintro ⟨address, s, e, hs, offends⟩
    have shows := Walk.offence?_ne_none_of_mem (enter_mem_steps_iff.2 ⟨address, hs⟩)
      (Site.offends_iff.1 offends)
    obtain ⟨e', h⟩ := Option.ne_none_iff_exists'.1 shows
    exact ⟨e', ((a.performs_register assigned).runFrom_eq_error_iff p).2 h⟩
  · rintro ⟨e, offends⟩
    exact offends.openArray plain
  · rintro ⟨size, isOpen⟩
    exact ⟨_, .unsupportedArray isOpen⟩

end Aggregate

end FlatDecls
