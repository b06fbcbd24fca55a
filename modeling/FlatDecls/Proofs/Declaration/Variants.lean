import FlatDecls.Proofs.Declaration.Decoding

/-!
# Variants

A decoder of variants finds the case by its name, which stands alone as a string or as the only key
of an object. So a variant is read in the forms of its branches, each of which is read as what it
carries.
-/

namespace FlatDecls

open Json

variable {α β : Type} {s : Shape} {b : Nat}

/-- A case of a variant, with the form and the shape of what it carries. A case that carries nothing
carries null where it is written as an object. -/
structure Branch (α : Type) where
  case : Case α
  form : α → Form
  shape : Shape

namespace Branch

/-- The case of one value, which carries nothing. -/
def bare (name : String) (a : α) : Branch α :=
  ⟨⟨name, .nothing a⟩, fun x n ↦ x = a ∧ n = .atom .null, .text⟩

/-- The case of the values that are made of another value. -/
def value (name : String) (make : β → α) (read : Node → Decoded β) (form : β → Form)
    (shape : Shape) : Branch α :=
  ⟨⟨name, .value fun n ↦ make <$> read n⟩, fun a n ↦ ∃ x, a = make x ∧ form x n, shape⟩

/-- The case of the values that carry the fields of a record. -/
def fields (name : String) (read : Node → Decoded α) (form : α → Form) (shape : Shape) : Branch α :=
  ⟨⟨name, .fields read⟩, form, shape⟩

/-- The branch writes the value so. -/
def Writes (r : Branch α) (a : α) (n : Node) : Prop :=
  r.case.payload = .nothing a ∧ n = .atom (.string r.case.name) ∨
    ∃ m, n = .object [.pair (.name r.case.name) m] ∧ r.form a m

/-- The branches have names of their own, and the shape has these cases. -/
structure Describe (rs : List (Branch α)) (s : Shape) : Prop where
  distinct : (rs.map (·.case.name)).Nodup
  members : s.members = rs.map fun r ↦ (r.case.name, r.shape)

variable {rs : List (Branch α)} {r : Branch α} {a : α} {n : Node}

@[simp]
theorem bare_writes_iff {name : String} {x : α} :
    (bare name a).Writes x n ↔ x = a ∧ Form.tag name n := by
  simp only [Writes, bare, Form.tag, Payload.nothing.injEq, eq_comm (a := a)]
  constructor
  · rintro (⟨rfl, h⟩ | ⟨m, h, rfl, rfl⟩)
    · exact ⟨rfl, .inl h⟩
    · exact ⟨rfl, .inr h⟩
  · rintro ⟨rfl, h | h⟩
    · exact .inl ⟨rfl, h⟩
    · exact .inr ⟨_, h, rfl, rfl⟩

@[simp]
theorem value_writes_iff {name : String} {make : β → α} {read : Node → Decoded β}
    {form : β → Form} :
    (value name make read form s).Writes a n ↔ ∃ x, a = make x ∧ Form.tagged name (form x) n := by
  simp only [Writes, value, Form.tagged, reduceCtorEq, false_and, false_or]
  constructor
  · rintro ⟨m, h, x, rfl, written⟩
    exact ⟨x, rfl, m, h, written⟩
  · rintro ⟨x, rfl, m, h, written⟩
    exact ⟨m, h, x, rfl, written⟩

@[simp]
theorem fields_writes_iff {name : String} {read : Node → Decoded α} {form : α → Form} :
    (fields name read form s).Writes a n ↔ Form.tagged name (form a) n := by
  simp only [Writes, fields, Form.tagged, reduceCtorEq, false_and, false_or]

/-- A case is selected by its name. -/
theorem select_eq_ok_iff (distinct : (rs.map (·.case.name)).Nodup) {name : String} {c : Case α} :
    Case.select (rs.map (·.case)) name = .ok c ↔ ∃ r ∈ rs, r.case = c ∧ r.case.name = name := by
  have distinct : ((rs.map (·.case)).map (·.name)).Nodup := by
    rw [List.map_map]
    exact distinct
  have found := find?_key_eq_some_iff distinct (k := name) (x := c)
  rw [List.mem_map] at found
  have selected : Case.select (rs.map (·.case)) name = .ok c ↔
      (rs.map (·.case)).find? (·.name == name) = some c := by
    rw [Case.select]
    cases (rs.map (·.case)).find? (·.name == name) <;> simp
  rw [selected, found]
  constructor
  · rintro ⟨⟨r, hr, rfl⟩, same⟩
    exact ⟨r, hr, rfl, same⟩
  · rintro ⟨r, hr, rfl, same⟩
    exact ⟨⟨r, hr, rfl⟩, same⟩

theorem select_of_mem (distinct : (rs.map (·.case.name)).Nodup) (hr : r ∈ rs) :
    Case.select (rs.map (·.case)) r.case.name = .ok r.case :=
  (select_eq_ok_iff distinct).2 ⟨r, hr, rfl, rfl⟩

theorem bare_eq_ok_iff {c : Case α} : c.bare = .ok a ↔ c.payload = .nothing a := by
  rcases c with ⟨_, _ | _ | _⟩ <;> simp [Case.bare]

theorem Describe.member? (h : Describe rs s) (hr : r ∈ rs) :
    s.member? r.case.name = some r.shape := by
  have distinct : (s.members.map Prod.fst).Nodup := by
    rw [h.members, List.map_map]
    exact h.distinct
  have known : (r.case.name, r.shape) ∈ s.members := h.members ▸ List.mem_map.2 ⟨r, hr, rfl⟩
  exact congrArg (Option.map Prod.snd) ((find?_key_eq_some_iff distinct).2 ⟨known, rfl⟩)

/-- An object with the name of a case opens one container more than what the case carries. -/
theorem Describe.opensAtMost_iff (h : Describe rs s) (hr : r ∈ rs) {m : Node} :
    OpensAtMost (b + 1) s (.object [.pair (.name r.case.name) m]) ↔ OpensAtMost b r.shape m := by
  rw [opensAtMost_object_iff]
  constructor
  · exact fun most ↦ most _ m r.shape List.mem_cons_self (h.member? hr)
  · intro most key n t stands known
    obtain ⟨⟨rfl⟩, rfl⟩ := Member.pair.inj (List.mem_singleton.1 stands)
    obtain rfl := Option.some.inj ((h.member? hr).symm.trans known)
    exact most

theorem Describe.tidy (h : Describe rs s) (hr : r ∈ rs) {m : Node} (inner : Tidy r.shape m) :
    Tidy s (.object [.pair (.name r.case.name) m]) := by
  refine tidy_object ?_ (fun key _ ↦ ?_) ?_
  · exact List.forall_mem_singleton.2 ⟨_, m, rfl, inner.whole⟩
  · exact List.length_filterMap_le _ _
  · intro key n t stands known
    obtain ⟨⟨rfl⟩, rfl⟩ := Member.pair.inj (List.mem_singleton.1 stands)
    obtain rfl := Option.some.inj ((h.member? hr).symm.trans known)
    exact inner

end Branch

open Branch

/-- A variant is read as its branches are. -/
theorem reads_variant {rs : List (Branch α)} {canOpen : Bool} (opens : canOpen = decide (0 < b))
    (describe : Describe rs s)
    (reads : ∀ d, b = d + 1 → ∀ r ∈ rs, Reads r.case.apply r.form r.shape d) :
    Reads (variant canOpen (rs.map (·.case))) (fun a n ↦ ∃ r ∈ rs, r.Writes a n) s b where
  sound := by
    intro n a ok
    rw [variant.eq_def] at ok
    split at ok
    next name =>
      obtain ⟨c, selected, bare⟩ := eq_ok_of_bind ok
      obtain ⟨r, hr, rfl, rfl⟩ := (select_eq_ok_iff describe.distinct).1 selected
      exact ⟨⟨r, hr, .inl ⟨bare_eq_ok_iff.1 bare, rfl⟩⟩, opensAtMost_atom⟩
    next => cases ok
    next members =>
      -- with no container left to open, only the name alone is a variant
      cases b with
      | zero =>
        obtain rfl : canOpen = false := opens
        cases ok
      | succ d =>
        obtain rfl : canOpen = true := opens
        rw [if_pos rfl, Case.readMembers.eq_def] at ok
        split at ok
        next => cases ok
        next => cases ok
        next => cases ok
        next name m rest =>
          obtain ⟨c, selected, carried⟩ := eq_ok_of_bind ok
          obtain ⟨r, hr, rfl, rfl⟩ := (select_eq_ok_iff describe.distinct).1 selected
          obtain ⟨a, applied, last⟩ := eq_ok_of_bind carried
          have ⟨written, most⟩ := (reads d rfl r hr).sound applied
          split at last
          next =>
            obtain rfl := Except.ok.inj last
            exact ⟨⟨r, hr, .inr ⟨m, rfl, written⟩⟩, (describe.opensAtMost_iff hr).2 most⟩
          next => cases last
    next => cases ok
    next => cases ok
  complete := by
    rintro n a ⟨r, hr, ⟨payload, rfl⟩ | ⟨m, rfl, written⟩⟩
    · rw [variant, select_of_mem describe.distinct hr]
      exact ⟨fun _ ↦ bare_eq_ok_iff.2 payload, fun h ↦ absurd opensAtMost_atom h⟩
    · cases b with
      | zero =>
        obtain rfl : canOpen = false := opens
        exact ⟨fun most ↦ absurd most (not_opensAtMost_zero trivial), fun _ ↦ rfl⟩
      | succ d =>
        obtain rfl : canOpen = true := opens
        rw [variant, if_pos rfl, Case.readMembers, select_of_mem describe.distinct hr]
        have inner := (reads d rfl r hr).complete written
        exact (inner.bind (.pure a)).congr
          ((and_iff_left trivial).trans (describe.opensAtMost_iff hr).symm)
  tidy := by
    rintro n a ⟨r, hr, ⟨-, rfl⟩ | ⟨m, rfl, written⟩⟩ most
    · exact tidy_atom trivial
    · cases b with
      | zero => exact absurd most (not_opensAtMost_zero trivial)
      | succ d =>
        exact describe.tidy hr
          ((reads d rfl r hr).tidy written ((describe.opensAtMost_iff hr).1 most))

end FlatDecls
