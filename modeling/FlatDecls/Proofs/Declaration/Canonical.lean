import FlatDecls.Proofs.Declaration.Acceptance
import FlatDecls.Proofs.Json.Encoding

/-!
# Reading what was written

The canonical form of a part of a declaration tree is one of its spellings, and all its members are
known (`Encodes`), so it opens just as many containers as the value is deep. Hence the text of a
source unit reads back up to the limit on nesting, and beyond it is refused
(`SourceUnit.ofJson_toJson`).
-/

namespace FlatDecls

open Json FieldForm

variable {α : Type} {s t : Shape} {form : Form} {v : Value} {b : Nat}

/-! ### Known members -/

/-- All members are known by the shape, at any depth. -/
inductive Json.Value.Known : Shape → Value → Prop
  | null {s : Shape} : Known s .null
  | boolean {s : Shape} {b : Bool} : Known s (.boolean b)
  | integer {s : Shape} {i : Int} : Known s (.integer i)
  | string {s : Shape} {text : String} : Known s (.string text)
  | list {s : Shape} {items : List Value} (inner : ∀ v ∈ items, Known s v) :
      Known (.list s) (.array items)
  | object {s : Shape} {members : List (String × Value)}
      (known : ∀ m ∈ members, (s.member? m.1).isSome)
      (inner : ∀ m ∈ members, ∀ t, s.member? m.1 = some t → Known t m.2) :
      Known s (.object members)

/-- If all members are known, no container is ignored. -/
theorem Json.Value.Known.opensAtMost_iff (h : v.Known s) :
    OpensAtMost b s v.node ↔ v.depth ≤ b := by
  induction h generalizing b with
  | null | boolean | integer | string =>
    exact iff_of_true opensAtMost_atom (Nat.zero_le b)
  | list inner ih =>
    rw [Value.node_array]
    cases b with
    | zero => exact iff_of_false (not_opensAtMost_zero trivial) (by rw [Value.depth]; omega)
    | succ b =>
      rw [opensAtMost_list_iff, Value.depth_array_le_iff, List.forall_mem_map]
      exact forall₂_congr fun v hv ↦ ih v hv
  | object known inner ih =>
    rw [Value.node_object]
    cases b with
    | zero => exact iff_of_false (not_opensAtMost_zero trivial) (by rw [Value.depth]; omega)
    | succ b =>
      -- all members count towards the depth, and all are known, so none is passed over
      rw [opensAtMost_object_iff, Value.depth_object_le_iff]
      constructor
      · intro most m hm
        obtain ⟨t, there⟩ := Option.isSome_iff_exists.1 (known m hm)
        exact (ih m hm t there).1 (most m.1 m.2.node t (List.mem_map.2 ⟨m, hm, rfl⟩) there)
      · intro most key n t stands there
        obtain ⟨m, hm, same⟩ := List.mem_map.1 stands
        obtain ⟨⟨rfl⟩, rfl⟩ := Member.pair.inj same
        exact (ih m hm t there).2 (most m hm)

/-! ### Canonical forms -/

/-- The value is written in this form, and all its members are known. -/
structure Encodes (form : Form) (s : Shape) (v : Value) : Prop where
  form : form v.node
  known : v.Known s

/-- The members are written for these fields in their order, and all of them are known. -/
inductive EncodesFields (s : Shape) : List FieldForm → List (String × Value) → Prop
  | nil : EncodesFields s [] []
  | written {f : FieldForm} {fs : List FieldForm} {v : Value} {ms : List (String × Value)}
      {t : Shape} (known : s.member? f.key = some t) (value : Encodes f.form t v)
      (rest : EncodesFields s fs ms) : EncodesFields s (f :: fs) ((f.key, v) :: ms)
  | omitted {f : FieldForm} {fs : List FieldForm} {ms : List (String × Value)}
      (omissible : f.omissible) (rest : EncodesFields s fs ms) : EncodesFields s (f :: fs) ms

/-- A text is a text in the tree as well. -/
theorem encodes_text (text : String) : Encodes (.text text) .text (.string text) :=
  ⟨by rw [Value.node]; rfl, .string⟩

/-- An integer is written with its digits and nothing else. -/
theorem encodes_integer (i : Int) : Encodes (.integer i) s (.integer i) :=
  ⟨by rw [Value.node]; exact ⟨_, rfl, Numeral.denotes_ofInt i⟩, .integer⟩

/-- A case without content is its name. -/
theorem encodes_tag (name : String) : Encodes (.tag name) s (.string name) :=
  ⟨by rw [Value.node]; exact .inl rfl, .string⟩

/-- A case with content is an object with this one member. -/
theorem encodes_tagged {name : String} (known : s.member? name = some t) (h : Encodes form t v) :
    Encodes (.tagged name form) s (.object [(name, v)]) := by
  refine ⟨?_, .object (by simp [known]) ?_⟩
  · rw [Value.node_object]
    exact ⟨v.node, rfl, h.form⟩
  · intro m hm t' known'
    obtain rfl := List.mem_singleton.1 hm
    obtain rfl := Option.some.inj (known.symm.trans known')
    exact h.known

/-- A list is an array of what its elements are encoded as. -/
theorem encodes_list {xs : List α} {forms : α → Form} {encode : α → Value}
    (h : ∀ x ∈ xs, Encodes (forms x) t (encode x)) :
    Encodes (.list (xs.map forms)) (.list t) (.array (xs.map encode)) := by
  refine ⟨?_, .list (List.forall_mem_map.2 fun x hx ↦ (h x hx).known)⟩
  rw [Value.node_array, List.map_map]
  refine ⟨_, rfl, ?_⟩
  rw [List.forall₂_map_left_iff, List.forall₂_map_right_iff, List.forall₂_same]
  exact fun x hx ↦ (h x hx).form

namespace EncodesFields

variable {fs gs : List FieldForm} {ms ns : List (String × Value)}

/-- Two groups of fields may follow each other. -/
theorem append (first : EncodesFields s fs ms) (second : EncodesFields s gs ns) :
    EncodesFields s (fs ++ gs) (ms ++ ns) := by
  induction first with
  | nil => exact second
  | written known value rest ih => exact .written known value ih
  | omitted omissible rest ih => exact .omitted omissible ih

/-- A field that is written only if it has a value. -/
theorem optional {key : String} {forms : α → Form} {encode : α → Value} (x : Option α)
    (known : s.member? key = some t) (h : ∀ a, Encodes (forms a) t (encode a)) :
    EncodesFields s [defaulted key (.optional forms x) (x = none)]
      (Value.optionalMember key (x.map encode)) := by
  cases x with
  | none => exact .omitted rfl .nil
  | some a => exact .written known (h a) .nil

/-- A text that is absent is left out, which its form permits. -/
theorem optionalText {key : String} (x : Option String) (known : s.member? key = some .text) :
    EncodesFields s [defaulted key (.optional .text x) (x = none)] (Value.optionalText key x) :=
  optional x known encodes_text

/-- The members stand in the order of the fields, some of them left out. -/
theorem inOrder (h : EncodesFields s fs ms) :
    InOrder fs (ms.map fun m ↦ .pair (.name m.1) m.2.node) := by
  induction h with
  | nil => exact .nil
  | written known value rest ih => exact .written value.form ih
  | omitted omissible rest ih => exact .omitted omissible ih

/-- No member is there that a decoder would ignore. -/
theorem known (h : EncodesFields s fs ms) :
    ∀ m ∈ ms, ∃ t, s.member? m.1 = some t ∧ m.2.Known t := by
  induction h with
  | nil => exact nofun
  | written known value rest ih => exact List.forall_mem_cons.2 ⟨⟨_, known, value.known⟩, ih⟩
  | omitted omissible rest ih => exact ih

end EncodesFields

/-- A record is an object with the members of its fields. -/
theorem encodes_record {fs : List FieldForm} {ms : List (String × Value)}
    (h : EncodesFields s fs ms) : Encodes (.record fs) s (.object ms) := by
  refine ⟨?_, .object (fun m hm ↦ ?_) fun m hm t' known' ↦ ?_⟩
  · rw [Value.node_object]
    exact ⟨_, [], by rw [List.append_nil], h.inOrder, nofun⟩
  · obtain ⟨t, known, -⟩ := h.known m hm
    rw [known, Option.isSome_some]
  · obtain ⟨t, known, inner⟩ := h.known m hm
    obtain rfl := Option.some.inj (known.symm.trans known')
    exact inner

/-! ### Each type -/

theorem ArraySize.encodes (size : ArraySize) : Encodes size.SpelledBy .arraySize size.toJson := by
  cases size with
  | constant n => exact encodes_tagged rfl (encodes_integer n.toNat)
  | incomplete => exact encodes_tag "incomplete"
  | variableLength => exact encodes_tag "variable"

/-- A type is written as its form asks, by induction on the type. -/
theorem TypeRef.encodes (t : TypeRef) : Encodes t.SpelledBy .typeRef t.toJson := by
  induction t with
  | primitive p => exact encodes_tagged rfl (encodes_tag p.name)
  | pointer t ih => exact encodes_tagged rfl ih
  | array t size ih =>
    exact encodes_tagged rfl (encodes_record (.written rfl ih (.written rfl size.encodes .nil)))
  | nested i => exact encodes_tagged rfl (encodes_integer i.toNat)
  | named s => exact encodes_tagged rfl (encodes_text s)

/-- A field leaves out its width and its documentation where there are none. -/
theorem Field.encodes (f : Field) : Encodes f.SpelledBy .field f.toJson := by
  have required : EncodesFields .field
      [mandatory "name" (.text f.name), mandatory "ty" f.type.SpelledBy]
      [("name", .string f.name), ("ty", f.type.toJson)] :=
    .written rfl (encodes_text f.name) (.written rfl f.type.encodes .nil)
  have width : EncodesFields .field
      [defaulted "bit_width" (.optional (fun w ↦ .integer w.toNat) f.bitWidth) (f.bitWidth = none)]
      (Value.optionalMember "bit_width" (f.bitWidth.map fun w ↦ .integer w.toNat)) :=
    .optional f.bitWidth rfl fun w ↦ encodes_integer w.toNat
  exact encodes_record ((required.append width).append (.optionalText f.documentation rfl))

theorem Enumerator.encodes (e : Enumerator) : Encodes e.SpelledBy .enumerator e.toJson := by
  have required : EncodesFields .enumerator
      [mandatory "name" (.text e.name), mandatory "value" (.integer e.value.toInt)]
      [("name", .string e.name), ("value", .integer e.value.toInt)] :=
    .written rfl (encodes_text e.name) (.written rfl (encodes_integer e.value.toInt) .nil)
  exact encodes_record (required.append (.optionalText e.documentation rfl))

theorem Enumeration.encodes (e : Enumeration) : Encodes e.SpelledBy .enumeration e.toJson := by
  have members : EncodesFields .enumeration
      [defaulted "members" (.list (e.members.map Enumerator.SpelledBy)) (e.members = [])]
      [Value.list "members" (e.members.map Enumerator.toJson)] :=
    .written rfl (encodes_list fun m _ ↦ m.encodes) .nil
  exact encodes_record (((EncodesFields.optionalText e.name rfl).append members).append
    (.optionalText e.documentation rfl))

mutual

/-- An aggregate is written as its form asks. The induction goes through the declarations in its
body along with it. -/
theorem Aggregate.encodes (a : Aggregate) : Encodes a.SpelledBy .aggregate a.toJson := by
  rcases a with ⟨name, kind, fields, declarations, documentation⟩
  have lists : EncodesFields .aggregate
      [defaulted "kind" kind.SpelledBy (kind = .struct),
       defaulted "fields" (.list (fields.map Field.SpelledBy)) (fields = []),
       defaulted "declarations" (.list (declarations.map Declaration.SpelledBy))
         (declarations = [])]
      [("kind", .string kind.name), Value.list "fields" (fields.map Field.toJson),
       Value.list "declarations" (declarations.map Declaration.toJson)] :=
    .written rfl (encodes_tag kind.name) (.written rfl (encodes_list fun f _ ↦ f.encodes)
      (.written rfl (encodes_list fun d hd ↦ d.encodes) .nil))
  rw [Aggregate.SpelledBy, Aggregate.toJson, Declaration.spellings_eq_map,
    Declaration.listToJson_eq_map]
  exact encodes_record (((EncodesFields.optionalText name rfl).append lists).append
    (.optionalText documentation rfl))

theorem Declaration.encodes (d : Declaration) : Encodes d.SpelledBy .declaration d.toJson := by
  cases d with
  | aggregate a =>
    rw [Declaration.SpelledBy, Declaration.toJson]
    exact encodes_tagged rfl a.encodes
  | enumeration e =>
    rw [Declaration.SpelledBy, Declaration.toJson]
    exact encodes_tagged rfl e.encodes

end

theorem AliasTarget.encodes (t : AliasTarget) : Encodes t.SpelledBy .aliasTarget t.toJson := by
  cases t with
  | aggregate a => exact encodes_tagged rfl a.encodes
  | type t => exact encodes_tagged rfl t.encodes

theorem Alias.encodes (a : Alias) : Encodes a.SpelledBy .typeAlias a.toJson :=
  encodes_record (.written rfl (encodes_text a.name) (.written rfl a.target.encodes .nil))

/-- What is written for a source unit is one of its spellings. -/
theorem SourceUnit.encodes (u : SourceUnit) : Encodes u.SpelledBy .sourceUnit u.toJson :=
  encodes_record (.written rfl (encodes_list fun d _ ↦ d.encodes)
    (.written rfl (encodes_list fun a _ ↦ a.encodes) .nil))

/-! ### Source units -/

namespace SourceUnit

/-- Any text of the canonical form is read back as far as its nesting allows. -/
theorem ofJson_of_written (u : SourceUnit) {text : String} (h : u.toJson.node.Written text) :
    ofJson text = if u.toJson.depth ≤ nestingLimit then .ok u else malformed .tooDeep := by
  have yields := yields_of_spelling ⟨_, h, u.encodes.form⟩
  have most : NestedAtMost nestingLimit text ↔ u.toJson.depth ≤ nestingLimit :=
    (nestedAtMost_iff h).trans u.encodes.known.opensAtMost_iff
  split
  next shallow => exact yields.ok (most.2 shallow)
  next deep => exact yields.refused (deep ∘ most.1)

/-- The encoding of a source unit is decoded to it if no more than 127 containers are open in it at
once, and otherwise refused as a text that is nested too deeply. -/
theorem ofJson_toJson (u : SourceUnit) :
    ofJson u.toJson.compact =
        (if u.toJson.depth ≤ 127 then .ok u else .error (.malformed .tooDeep)) ∧
      ofJson u.toJson.pretty =
        (if u.toJson.depth ≤ 127 then .ok u else .error (.malformed .tooDeep)) :=
  ⟨u.ofJson_of_written u.toJson.written_compact, u.ofJson_of_written u.toJson.written_pretty⟩

end SourceUnit

end FlatDecls
