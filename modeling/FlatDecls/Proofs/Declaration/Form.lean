import FlatDecls.Proofs.Declaration.Shape

/-!
# Forms of values

The ways in which a part of a description may be written, as a predicate on the value that stands in
its place. There is a form for each kind of part: texts and integers, lists, the cases of variants,
and records. A record may be written as an object, with its fields in any order and other members
between them, or as an array of its fields in order; a field with its default may be omitted.
-/

namespace FlatDecls

open Json

/-- The ways in which something may be written. -/
abbrev Form := Node → Prop

/-- How a field of a record may be written. -/
structure FieldForm where
  key : String
  form : Form
  /-- May the field be omitted, since it has its default? -/
  omissible : Prop

namespace FieldForm

/-- A field that is always there. -/
def mandatory (key : String) (form : Form) : FieldForm := ⟨key, form, False⟩

/-- A field that may be omitted if it has its default. -/
def defaulted (key : String) (form : Form) (usual : Prop) : FieldForm := ⟨key, form, usual⟩

/-- Members for the fields of a record, in their order. -/
inductive InOrder : List FieldForm → List Member → Prop
  | nil : InOrder [] []
  | written {f : FieldForm} {fs : List FieldForm} {n : Node} {ms : List Member} (form : f.form n)
      (rest : InOrder fs ms) : InOrder (f :: fs) (.pair (.name f.key) n :: ms)
  | omitted {f : FieldForm} {fs : List FieldForm} {ms : List Member} (omissible : f.omissible)
      (rest : InOrder fs ms) : InOrder (f :: fs) ms

/-- Items for the fields of a record, in their order; only trailing ones may be omitted. -/
inductive Items : List FieldForm → List Node → Prop
  | written {f : FieldForm} {fs : List FieldForm} {n : Node} {ns : List Node} (form : f.form n)
      (rest : Items fs ns) : Items (f :: fs) (n :: ns)
  | omitted {fs : List FieldForm} (omissible : ∀ f ∈ fs, f.omissible) : Items fs []

/-- An array may end where all fields that are left may be omitted. -/
theorem items_nil_iff {fs : List FieldForm} : Items fs [] ↔ ∀ f ∈ fs, f.omissible := by
  constructor
  · rintro ⟨⟩
    assumption
  · exact .omitted

theorem items_cons_iff {f : FieldForm} {fs : List FieldForm} {n : Node} {ns : List Node} :
    Items (f :: fs) (n :: ns) ↔ f.form n ∧ Items fs ns := by
  constructor
  · rintro ⟨⟩
    exact ⟨‹_›, ‹_›⟩
  · exact fun ⟨form, rest⟩ ↦ .written form rest

/-- An item of the array form belongs to the field with its number. -/
theorem form_of_items {fs : List FieldForm} {ns : List Node} {n : Node} {i : Nat}
    (h : Items fs ns) (stands : ns[i]? = some n) : ∃ f, fs[i]? = some f ∧ f.form n := by
  induction h generalizing i with
  | omitted => cases stands
  | @written f fs m ns form rest ih =>
    cases i with
    | zero =>
      obtain rfl := Option.some.inj stands
      exact ⟨f, rfl, form⟩
    | succ i => exact ih stands

/-- A member with any other key and any value. -/
def Ignored (fields : List FieldForm) (m : Member) : Prop :=
  ∃ key n, m = .pair (.name key) n ∧ (∀ f ∈ fields, f.key ≠ key) ∧ n.Whole

end FieldForm

open FieldForm

namespace Form

/-- A text. -/
def text (s : String) : Form := (· = .atom (.string s))

/-- An integer, as a sign and digits. -/
def integer (i : Int) : Form := fun n ↦ ∃ m : Numeral, n = .atom (.number m) ∧ m.Denotes i

/-- A value that may be absent. -/
def optional {α : Type} (form : α → Form) : Option α → Form
  | none => (· = .atom .null)
  | some a => form a

/-- A list. -/
def list (forms : List Form) : Form :=
  fun n ↦ ∃ items, n = .array items ∧ List.Forall₂ (fun form n ↦ form n) forms items

/-- A case that carries nothing. -/
def tag (name : String) : Form :=
  fun n ↦ n = .atom (.string name) ∨ n = .object [.pair (.name name) (.atom .null)]

/-- A case with what it carries. -/
def tagged (name : String) (form : Form) : Form :=
  fun n ↦ ∃ m, n = .object [.pair (.name name) m] ∧ form m

/-- A record. -/
def record (fields : List FieldForm) : Form
  | .object members => ∃ written ignored, members.Perm (written ++ ignored) ∧
      InOrder fields written ∧ ∀ m ∈ ignored, Ignored fields m
  | .array items => Items fields items
  | _ => False

end Form

/-! ### Objects of records -/

section Values

variable {key : String} {n : Node} {members : List Member}

@[simp]
theorem valuesOf_cons_self (key : String) (n : Node) (members : List Member) :
    valuesOf key (.pair (.name key) n :: members) = n :: valuesOf key members := by
  simp [valuesOf, Member.value?]

theorem valuesOf_cons_of_ne {name : String} (h : name ≠ key) :
    valuesOf key (.pair (.name name) n :: members) = valuesOf key members := by
  simp [valuesOf, Member.value?, h]

theorem valuesOf_append (key : String) (ms ns : List Member) :
    valuesOf key (ms ++ ns) = valuesOf key ms ++ valuesOf key ns :=
  List.filterMap_append

/-- The values of a key are those that stand behind it somewhere in the object. -/
theorem mem_valuesOf_iff : n ∈ valuesOf key members ↔ .pair (.name key) n ∈ members := by
  rw [valuesOf, List.mem_filterMap]
  constructor
  · rintro ⟨m, hm, h⟩
    rw [Member.value?.eq_def] at h
    split at h
    · split at h
      next same =>
        obtain rfl := Option.some.inj h
        exact same ▸ hm
      next => cases h
    · cases h
  · exact fun h ↦ ⟨_, h, if_pos rfl⟩

end Values

/-- The values of the members with the key of a field: there is one of its form, or none and the
field has its default. -/
def FieldForm.Stands (f : FieldForm) (ns : List Node) : Prop :=
  ns = [] ∧ f.omissible ∨ ∃ n, ns = [n] ∧ f.form n

/-- A field may be absent if it may be omitted. -/
theorem stands_nil_iff {f : FieldForm} : f.Stands [] ↔ f.omissible := by
  simp [FieldForm.Stands]

/-- A field stands once at most. -/
theorem FieldForm.Stands.length_le {f : FieldForm} {ns : List Node} (h : f.Stands ns) :
    ns.length ≤ 1 := by
  rcases h with ⟨rfl, -⟩ | ⟨n, rfl, -⟩ <;> simp

theorem FieldForm.Stands.form_of_mem {f : FieldForm} {n : Node} {ns : List Node} (h : f.Stands ns)
    (hn : n ∈ ns) : f.form n := by
  rcases h with ⟨rfl, -⟩ | ⟨m, rfl, form⟩
  · cases hn
  · exact List.mem_singleton.1 hn ▸ form

/-- A field that stands is of its form and stands nowhere else. -/
theorem stands_cons_iff {f : FieldForm} {n : Node} {ns : List Node} :
    f.Stands (n :: ns) ↔ f.form n ∧ ns = [] := by
  simp [FieldForm.Stands, and_comm]

/-- What the members of an object must be for the fields of a record: those with the key of a field
are as the field requires, and the values of the others are there. -/
structure FieldForm.Filled (fields : List FieldForm) (members : List Member) : Prop where
  named : ∀ m ∈ members, ∃ key n, m = .pair (.name key) n ∧
    ((∀ f ∈ fields, f.key ≠ key) → n.Whole)
  stands : ∀ f ∈ fields, f.Stands (valuesOf f.key members)

section Objects

variable {f : FieldForm} {fs fields : List FieldForm} {members written ignored : List Member}

/-- The other fields have other keys. -/
theorem key_ne_of_distinct (distinct : ((f :: fs).map (·.key)).Nodup) :
    ∀ g ∈ fs, g.key ≠ f.key := by
  intro g hg same
  exact (List.nodup_cons.1 distinct).1 (List.mem_map.2 ⟨g, hg, same⟩)

/-- Where fields are written in order, no other key occurs. -/
theorem valuesOf_eq_nil_of_inOrder (h : InOrder fields written) {key : String}
    (other : ∀ f ∈ fields, f.key ≠ key) : valuesOf key written = [] := by
  induction h with
  | nil => rfl
  | written form rest ih =>
    have ⟨first, other⟩ := List.forall_mem_cons.1 other
    rw [valuesOf_cons_of_ne first, ih other]
  | omitted omissible rest ih => exact ih (List.forall_mem_cons.1 other).2

/-- Each field stands as it should where distinct fields are written in order. -/
theorem stands_of_inOrder (h : InOrder fields written) (distinct : (fields.map (·.key)).Nodup) :
    ∀ f ∈ fields, f.Stands (valuesOf f.key written) := by
  induction h with
  | nil => exact fun f hf ↦ nomatch hf
  | @written f fs n ms form rest ih =>
    have apart := key_ne_of_distinct distinct
    refine List.forall_mem_cons.2 ⟨?_, fun g hg ↦ ?_⟩
    · rw [valuesOf_cons_self]
      exact stands_cons_iff.2 ⟨form, valuesOf_eq_nil_of_inOrder rest apart⟩
    · rw [valuesOf_cons_of_ne (apart g hg).symm]
      exact ih (List.nodup_cons.1 distinct).2 g hg
  | omitted omissible rest ih =>
    have absent := valuesOf_eq_nil_of_inOrder rest (key_ne_of_distinct distinct)
    exact List.forall_mem_cons.2 ⟨.inl ⟨absent, omissible⟩, ih (List.nodup_cons.1 distinct).2⟩

/-- Every member that is written belongs to a field. -/
theorem named_of_inOrder (h : InOrder fields written) :
    ∀ m ∈ written, ∃ f ∈ fields, ∃ n, m = .pair (.name f.key) n := by
  induction h with
  | nil => exact fun m hm ↦ nomatch hm
  | @written f fs n ms form rest ih =>
    refine List.forall_mem_cons.2 ⟨⟨f, List.mem_cons_self, n, rfl⟩, fun m hm ↦ ?_⟩
    have ⟨g, hg, n, same⟩ := ih m hm
    exact ⟨g, List.mem_cons_of_mem _ hg, n, same⟩
  | omitted omissible rest ih =>
    intro m hm
    have ⟨g, hg, n, same⟩ := ih m hm
    exact ⟨g, List.mem_cons_of_mem _ hg, n, same⟩

/-- A field has no value among members that are ignored. -/
theorem valuesOf_eq_nil_of_ignored (h : ∀ m ∈ ignored, Ignored fields m) (hf : f ∈ fields) :
    valuesOf f.key ignored = [] := by
  rw [List.eq_nil_iff_forall_not_mem]
  intro n hn
  obtain ⟨key, n, same, other, -⟩ := h _ (mem_valuesOf_iff.1 hn)
  exact other f hf (Key.name.inj (Member.pair.inj same).1)

/-- Members for the fields with others between them, in any order. -/
theorem filled_of_perm (distinct : (fields.map (·.key)).Nodup) (inOrder : InOrder fields written)
    (others : ∀ m ∈ ignored, Ignored fields m) (same : members.Perm (written ++ ignored)) :
    Filled fields members where
  named m hm := by
    rcases List.mem_append.1 (same.mem_iff.1 hm) with hm | hm
    · obtain ⟨f, hf, n, rfl⟩ := named_of_inOrder inOrder m hm
      exact ⟨f.key, n, rfl, fun other ↦ absurd rfl (other f hf)⟩
    · obtain ⟨key, n, rfl, -, whole⟩ := others m hm
      exact ⟨key, n, rfl, fun _ ↦ whole⟩
  stands f hf := by
    have values : (valuesOf f.key members).Perm (valuesOf f.key (written ++ ignored)) :=
      same.filterMap _
    rw [valuesOf_append, valuesOf_eq_nil_of_ignored others hf, List.append_nil] at values
    rcases stands_of_inOrder inOrder distinct f hf with ⟨absent, omissible⟩ | ⟨n, one, form⟩
    · exact .inl ⟨(absent ▸ values).eq_nil, omissible⟩
    · exact .inr ⟨n, List.perm_singleton.1 (one ▸ values), form⟩

theorem key_ne_of_valuesOf_eq_nil {key name : String} {n : Node}
    (absent : valuesOf key members = []) (hm : .pair (.name name) n ∈ members) : key ≠ name := by
  rintro rfl
  exact List.not_mem_nil (absent ▸ mem_valuesOf_iff.2 hm)

/-- A field may be left out of account together with its members. -/
theorem FieldForm.Filled.of_cons {ms : List Member} (h : Filled (f :: fs) members)
    (sub : ∀ m ∈ ms, m ∈ members) (absent : valuesOf f.key ms = [])
    (same : ∀ g ∈ fs, valuesOf g.key ms = valuesOf g.key members) : Filled fs ms where
  named m hm := by
    obtain ⟨key, n, rfl, whole⟩ := h.named m (sub m hm)
    have other := key_ne_of_valuesOf_eq_nil absent hm
    exact ⟨key, n, rfl, fun others ↦ whole (List.forall_mem_cons.2 ⟨other, others⟩)⟩
  stands g hg := by
    rw [same g hg]
    exact h.stands g (List.mem_cons_of_mem _ hg)

/-- Nor has the field a member that is ignored. -/
theorem ignored_cons (absent : valuesOf f.key members = []) (sub : ∀ m ∈ ignored, m ∈ members)
    (h : ∀ m ∈ ignored, Ignored fs m) : ∀ m ∈ ignored, Ignored (f :: fs) m := by
  intro m hm
  obtain ⟨key, n, rfl, others, whole⟩ := h m hm
  have other := key_ne_of_valuesOf_eq_nil absent (sub _ hm)
  exact ⟨key, n, rfl, List.forall_mem_cons.2 ⟨other, others⟩, whole⟩

/-- The one member of a field may be taken out. -/
theorem FieldForm.Filled.remove {before behind : List Member} {n : Node}
    (h : Filled (f :: fs) (before ++ .pair (.name f.key) n :: behind))
    (apart : ∀ g ∈ fs, g.key ≠ f.key) :
    valuesOf f.key (before ++ behind) = [] ∧ Filled fs (before ++ behind) := by
  have absent : valuesOf f.key (before ++ behind) = [] := by
    have one := (h.stands f List.mem_cons_self).length_le
    rw [valuesOf_append, valuesOf_cons_self] at one
    rw [← List.length_eq_zero_iff, valuesOf_append]
    simp only [List.length_append, List.length_cons] at one ⊢
    omega
  refine ⟨absent, h.of_cons (fun m hm ↦ ?_) absent fun g hg ↦ ?_⟩
  · simpa using (List.mem_append.1 hm).imp_right .inr
  · rw [valuesOf_append, valuesOf_append, valuesOf_cons_of_ne (apart g hg).symm]

/-- The members for the fields can be told from the others. -/
theorem FieldForm.Filled.exists_inOrder (h : Filled fields members)
    (distinct : (fields.map (·.key)).Nodup) :
    ∃ written ignored, members.Perm (written ++ ignored) ∧ InOrder fields written ∧
      ∀ m ∈ ignored, Ignored fields m := by
  -- the members are taken out field by field, and those that are left at the end are the ignored
  induction fields generalizing members with
  | nil =>
    refine ⟨[], members, .rfl, .nil, fun m hm ↦ ?_⟩
    obtain ⟨key, n, rfl, whole⟩ := h.named m hm
    exact ⟨key, n, rfl, nofun, whole nofun⟩
  | cons f fs ih =>
    have apart := key_ne_of_distinct distinct
    have distinct := (List.nodup_cons.1 distinct).2
    rcases h.stands f List.mem_cons_self with ⟨absent, omissible⟩ | ⟨n, one, form⟩
    · obtain ⟨written, ignored, same, inOrder, others⟩ :=
        ih (h.of_cons (fun _ hm ↦ hm) absent fun _ _ ↦ rfl) distinct
      have sub (m : Member) (hm : m ∈ ignored) : m ∈ members :=
        same.mem_iff.2 (List.mem_append_right _ hm)
      exact ⟨written, ignored, same, .omitted omissible inOrder, ignored_cons absent sub others⟩
    · have hn : .pair (.name f.key) n ∈ members := mem_valuesOf_iff.1 (one ▸ List.mem_cons_self)
      obtain ⟨before, behind, rfl⟩ := List.append_of_mem hn
      have ⟨absent, rest⟩ := h.remove apart
      obtain ⟨written, ignored, same, inOrder, others⟩ := ih rest distinct
      have sub (m : Member) (hm : m ∈ ignored) : m ∈ before ++ behind :=
        same.mem_iff.2 (List.mem_append_right _ hm)
      exact ⟨.pair (.name f.key) n :: written, ignored, List.perm_middle.trans (same.cons _),
        .written form inOrder, ignored_cons absent sub others⟩

/-- An object is written for a record exactly if its members fill the fields. -/
theorem record_object_iff (distinct : (fields.map (·.key)).Nodup) :
    Form.record fields (.object members) ↔ Filled fields members :=
  ⟨fun ⟨_, _, same, inOrder, others⟩ ↦ filled_of_perm distinct inOrder others same,
    fun h ↦ h.exists_inOrder distinct⟩

end Objects

end FlatDecls
