import FlatDecls.Proofs.Flattening.Walk

/-!
# Addresses of fields

A field that a walk enters is found by its *address*: the positions of the fields on the way
down to it, each but the last of a type that is declared as an aggregate in its owner's body.
In lexicographic order (`Address.AtOrBefore`) they are the fields in depth-first order, a field
before those in its body. So the first offence of a walk is that of the field with the least
address among the fields that offend (`Aggregate.offence?_steps_eq_some_iff`).
-/

namespace FlatDecls

/-- The positions of the fields on the way down to a field. -/
abbrev Address := List Nat

namespace Address

/-- Depth-first order: a field comes before those below it, and these come in the order of the
fields on the way down. -/
def AtOrBefore : Address → Address → Prop
  | [], _ => True
  | _ :: _, [] => False
  | k :: x, j :: y => k < j ∨ (k = j ∧ AtOrBefore x y)

@[simp]
theorem nil_atOrBefore (y : Address) : AtOrBefore [] y := by
  cases y <;> trivial

theorem cons_atOrBefore_cons_iff {k j : Nat} {x y : Address} :
    AtOrBefore (k :: x) (j :: y) ↔ k < j ∨ (k = j ∧ x.AtOrBefore y) := by
  rw [AtOrBefore]

/-- Two addresses, neither of them behind the other, are the same. -/
theorem AtOrBefore.antisymm {x y : Address} (hxy : x.AtOrBefore y) (hyx : y.AtOrBefore x) :
    x = y := by
  induction x generalizing y with
  | nil =>
    cases y with
    | nil => rfl
    | cons j y => exact absurd hyx id
  | cons k x ih =>
    cases y with
    | nil => exact absurd hxy id
    | cons j y =>
      rw [cons_atOrBefore_cons_iff] at hxy hyx
      rcases hxy with hkj | ⟨rfl, hxy⟩
      · rcases hyx with hjk | ⟨rfl, -⟩ <;> omega
      · rcases hyx with hkk | ⟨-, hyx⟩
        · omega
        · rw [ih hxy hyx]

end Address

namespace Aggregate

/-- The site at an address in an aggregate under an assigned name. -/
inductive FieldAt : Aggregate → (assigned : String) → (address : Address) → Site → Prop
  | here {a : Aggregate} {assigned : String} {k : Nat} {f : Field}
      (field : a.fields[k]? = some f) : FieldAt a assigned [k] ⟨a, assigned, f⟩
  | inside {a b : Aggregate} {assigned : String} {k : Nat} {f : Field} {i : UInt64}
      {address : Address} {s : Site} (field : a.fields[k]? = some f)
      (type : f.type = .nested i) (declared : a.nested? i = some (.aggregate b))
      (rest : FieldAt b (assigned ++ "_" ++ f.name) address s) :
      FieldAt a assigned (k :: address) s

variable {a b : Aggregate} {assigned : String} {address : Address} {s t : Site}

/-- An address begins with a field of the aggregate, and ends there or goes on in the aggregate
that the field refers to. -/
theorem fieldAt_cons_iff {k : Nat} :
    a.FieldAt assigned (k :: address) s ↔
      ∃ f, a.fields[k]? = some f ∧
        ((address = [] ∧ s = ⟨a, assigned, f⟩) ∨
          ∃ b, Site.target? ⟨a, assigned, f⟩ = some (.aggregate b) ∧
            b.FieldAt (f.nestedName assigned) address s) := by
  constructor
  · intro h
    cases h with
    | here field => exact ⟨_, field, .inl ⟨rfl, rfl⟩⟩
    | inside field type declared rest =>
      exact ⟨_, field, .inr ⟨_, (Site.target?_of_nested type).trans declared, rest⟩⟩
  · rintro ⟨f, field, ⟨rfl, rfl⟩ | ⟨b, target, rest⟩⟩
    · exact .here field
    · obtain ⟨i, type, declared⟩ := Site.target?_eq_some_iff.1 target
      exact .inside field type declared rest

theorem not_fieldAt_nil : ¬ a.FieldAt assigned [] s := nofun

/-- An address belongs to one site only. -/
theorem FieldAt.unique (h : a.FieldAt assigned address s) (h' : a.FieldAt assigned address t) :
    s = t := by
  induction address generalizing a assigned with
  | nil => exact absurd h not_fieldAt_nil
  | cons k address ih =>
    obtain ⟨f, field, h⟩ := fieldAt_cons_iff.1 h
    obtain ⟨f', field', h'⟩ := fieldAt_cons_iff.1 h'
    obtain rfl : f = f' := Option.some.inj (field.symm.trans field')
    rcases h with ⟨rfl, rfl⟩ | ⟨b, target, rest⟩
    · rcases h' with ⟨-, rfl⟩ | ⟨b', -, rest'⟩
      · rfl
      · exact absurd rest' not_fieldAt_nil
    · rcases h' with ⟨rfl, -⟩ | ⟨b', target', rest'⟩
      · exact absurd rest not_fieldAt_nil
      · obtain rfl : b = b' := by simpa [target] using target'
        exact ih rest rest'

end Aggregate

/-- Below a field, only the walk over an aggregate enters fields. -/
theorem Site.enter_mem_nestedSteps_iff {s t : Site} :
    .enter t ∈ s.nestedSteps ↔
      ∃ b, s.target? = some (.aggregate b) ∧ .enter t ∈ b.steps s.nestedName := by
  rw [nestedSteps]
  cases s.target? with
  | none => simp
  | some d => cases d <;> simp

namespace Aggregate

variable {a : Aggregate} {assigned : String} {s : Site} {e : FlattenError}

/-- The fields that a walk enters are those that have an address. -/
theorem enter_mem_steps_iff :
    .enter s ∈ a.steps assigned ↔ ∃ address, a.FieldAt assigned address s := by
  induction a using bodyInduction generalizing assigned with
  | step a ih =>
    have below (f : Field) : .enter s ∈ Site.nestedSteps ⟨a, assigned, f⟩ ↔
        ∃ b, Site.target? ⟨a, assigned, f⟩ = some (.aggregate b) ∧
          ∃ address, b.FieldAt (f.nestedName assigned) address s := by
      rw [Site.enter_mem_nestedSteps_iff]
      refine exists_congr fun b ↦ and_congr_right fun target ↦ ih b (Site.mem_of_target? target)
    have entered : .enter s ∈ a.steps assigned ↔
        ∃ f ∈ a.fields, s = ⟨a, assigned, f⟩ ∨ .enter s ∈ Site.nestedSteps ⟨a, assigned, f⟩ := by
      simp [steps_eq, bodySteps, Site.steps]
    rw [entered]
    constructor
    · rintro ⟨f, hf, h⟩
      obtain ⟨k, field⟩ := List.getElem?_of_mem hf
      rcases h with rfl | h
      · exact ⟨[k], .here field⟩
      · obtain ⟨b, target, address, rest⟩ := (below f).1 h
        exact ⟨k :: address, fieldAt_cons_iff.2 ⟨f, field, .inr ⟨b, target, rest⟩⟩⟩
    · rintro ⟨address, h⟩
      cases address with
      | nil => exact absurd h not_fieldAt_nil
      | cons k address =>
        obtain ⟨f, field, ⟨-, rfl⟩ | ⟨b, target, rest⟩⟩ := fieldAt_cons_iff.1 h
        · exact ⟨f, List.mem_of_getElem? field, .inl rfl⟩
        · exact ⟨f, List.mem_of_getElem? field, .inr ((below f).2 ⟨b, target, address, rest⟩)⟩

end Aggregate

/-! ### The first offence -/

namespace Walk

/-- A step with an offence shows in the walk. -/
theorem offence?_ne_none_of_mem {w : Walk} {s : Site} {e : FlattenError} (hs : .enter s ∈ w)
    (he : s.offence? = some e) : offence? w ≠ none := by
  intro h
  have clean := List.findSome?_eq_none_iff.1 h (.enter s) hs
  simp [he] at clean

/-- The first offence of walks in a row is that of the first walk that has one. -/
theorem offence?_flatMap_eq_some_iff {walk : α → Walk} {xs : List α} {e : FlattenError} :
    offence? (xs.flatMap walk) = some e ↔
      ∃ (k : Nat) (x : α), xs[k]? = some x ∧ offence? (walk x) = some e ∧
        ∀ j < k, ∀ y, xs[j]? = some y → offence? (walk y) = none := by
  induction xs with
  | nil => simp
  | cons x xs ih =>
    rw [List.flatMap_cons, offence?_append]
    cases h : offence? (walk x) with
    | some e' =>
      rw [Option.some_or]
      constructor
      · rintro ⟨rfl⟩
        exact ⟨0, x, rfl, h, by simp⟩
      · rintro ⟨k, y, hy, he, before⟩
        cases k with
        | zero =>
          obtain rfl : x = y := by simpa using hy
          exact h.symm.trans he
        | succ k => exact absurd (before 0 k.succ_pos x rfl) (by simp [h])
    | none =>
      rw [Option.none_or, ih]
      constructor
      · rintro ⟨k, y, hy, he, before⟩
        refine ⟨k + 1, y, hy, he, fun j hj z hz ↦ ?_⟩
        cases j with
        | zero =>
          obtain rfl : x = z := by simpa using hz
          exact h
        | succ j => exact before j (by omega) z hz
      · rintro ⟨k, y, hy, he, before⟩
        cases k with
        | zero =>
          obtain rfl : x = y := by simpa using hy
          simp [h] at he
        | succ k => exact ⟨k, y, hy, he, fun j hj z hz ↦ before (j + 1) (by omega) z hz⟩

end Walk

namespace Site

variable {s : Site}

/-- A field that refers to a declaration does not offend. -/
theorem offence?_of_target? {d : Declaration} (h : s.target? = some d) : s.offence? = none := by
  obtain ⟨i, type, declared⟩ := target?_eq_some_iff.1 h
  have bound : i.toNat < s.owner.declarations.length := (List.getElem?_eq_some_iff.1 declared).1
  rw [offence?_of_nested type]
  simp [singleOffence?, type, bound]

/-- The first offence at a field is its own, or else the first in the aggregate that it refers
to; never both. -/
theorem offence?_steps_eq_some_iff {e : FlattenError} :
    Walk.offence? s.steps = some e ↔
      s.offence? = some e ∨
        ∃ b, s.target? = some (.aggregate b) ∧ Walk.offence? (b.steps s.nestedName) = some e := by
  have parts : Walk.offence? s.steps = s.offence?.or (Walk.offence? s.nestedSteps) := by
    simp [steps, Walk.offence?_cons, Walk.offence?_append]
  rw [parts, nestedSteps]
  cases target : s.target? with
  | none => simp
  | some d => cases d <;> simp [offence?_of_target? target, Walk.offence?_cons]

end Site

namespace Aggregate

variable {a : Aggregate} {assigned : String} {e : FlattenError}

/-- The least of the addresses at which something offends, with the offence there. -/
def FirstOffence (a : Aggregate) (assigned : String) (address : Address) (e : FlattenError) :
    Prop :=
  (∃ s, a.FieldAt assigned address s ∧ s.offence? = some e) ∧
    ∀ address' s', a.FieldAt assigned address' s' → s'.offence? ≠ none →
      address.AtOrBefore address'

theorem offence?_steps_eq : Walk.offence? (a.steps assigned) =
    Walk.offence? (a.fields.flatMap fun f ↦ Site.steps ⟨a, assigned, f⟩) := by
  rw [steps_eq, Walk.offence?_append, bodySteps]
  simp [Walk.offence?_cons]

/-- The first offence of a walk is at the least address. -/
theorem exists_firstOffence (h : Walk.offence? (a.steps assigned) = some e) :
    ∃ address, a.FirstOffence assigned address e := by
  induction a using bodyInduction generalizing assigned with
  | step a ih =>
    rw [offence?_steps_eq, Walk.offence?_flatMap_eq_some_iff] at h
    obtain ⟨k, f, field, he, before⟩ := h
    -- an earlier field would show its offence in its own walk
    have least (j : Nat) (address : Address) (s : Site)
        (hs : a.FieldAt assigned (j :: address) s) (offends : s.offence? ≠ none) : k ≤ j := by
      refine Nat.le_of_not_lt fun earlier ↦ ?_
      obtain ⟨f', field', hs⟩ := fieldAt_cons_iff.1 hs
      obtain ⟨e', he'⟩ := Option.ne_none_iff_exists'.1 offends
      have entered : .enter s ∈ Site.steps ⟨a, assigned, f'⟩ := by
        rcases hs with ⟨-, rfl⟩ | ⟨b, target, rest⟩
        · simp [Site.steps]
        · have below := Site.enter_mem_nestedSteps_iff.2
            ⟨b, target, enter_mem_steps_iff.2 ⟨address, rest⟩⟩
          simp [Site.steps, below]
      exact Walk.offence?_ne_none_of_mem entered he' (before j earlier f' field')
    rcases Site.offence?_steps_eq_some_iff.1 he with own | ⟨b, target, inner⟩
    -- the field itself offends: its address has length one
    · refine ⟨[k], ⟨_, .here field, own⟩, fun address s hs offends ↦ ?_⟩
      cases address with
      | nil => exact absurd hs not_fieldAt_nil
      | cons j address =>
        rw [Address.cons_atOrBefore_cons_iff]
        rcases Nat.lt_or_eq_of_le (least j address s hs offends) with h | rfl
        · exact .inl h
        · exact .inr ⟨rfl, Address.nil_atOrBefore address⟩
    -- the field does not offend, but something below it does
    · obtain ⟨address, ⟨s, hs, own⟩, first⟩ := ih b (Site.mem_of_target? target) inner
      refine ⟨k :: address, ⟨s, fieldAt_cons_iff.2 ⟨f, field, .inr ⟨b, target, hs⟩⟩, own⟩,
        fun address' s' hs' offends ↦ ?_⟩
      cases address' with
      | nil => exact absurd hs' not_fieldAt_nil
      | cons j address' =>
        rw [Address.cons_atOrBefore_cons_iff]
        rcases Nat.lt_or_eq_of_le (least j address' s' hs' offends) with h | rfl
        · exact .inl h
        · refine .inr ⟨rfl, ?_⟩
          obtain ⟨f', field', h⟩ := fieldAt_cons_iff.1 hs'
          obtain rfl : f = f' := Option.some.inj (field.symm.trans field')
          rcases h with ⟨-, rfl⟩ | ⟨b', target', rest⟩
          · exact absurd (Site.offence?_of_target? target) offends
          · obtain rfl : b = b' := by simpa [target] using target'
            exact first address' s' rest offends

/-- A walk has an offence exactly if a field with an address offends, and then the first is the
one at the least address. -/
theorem offence?_steps_eq_some_iff :
    Walk.offence? (a.steps assigned) = some e ↔ ∃ address, a.FirstOffence assigned address e := by
  refine ⟨exists_firstOffence, ?_⟩
  rintro ⟨address, ⟨s, hs, own⟩, first⟩
  have some_offence := Walk.offence?_ne_none_of_mem (enter_mem_steps_iff.2 ⟨address, hs⟩) own
  obtain ⟨e', h⟩ := Option.ne_none_iff_exists'.1 some_offence
  obtain ⟨address', ⟨s', hs', own'⟩, first'⟩ := exists_firstOffence h
  have same : address = address' :=
    (first address' s' hs' (by simp [own'])).antisymm (first' address s hs (by simp [own]))
  subst same
  obtain rfl := hs.unique hs'
  rw [h, ← own, own']

end Aggregate

end FlatDecls
