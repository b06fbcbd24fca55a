import Mathlib.Algebra.Order.Ring.Int
import FlatDecls.Declaration.Decode
import FlatDecls.Proofs.Declaration.Records
import FlatDecls.Proofs.Declaration.Spelling
import FlatDecls.Proofs.Declaration.Variants
import FlatDecls.Proofs.Json.Reading

/-!
# What is accepted as a source unit

Each decoder reads the spellings of its type, by the lemmas for records, variants and lists; the
decoders that call one another do so by induction on the number of containers that they may open. So
a text is accepted as a source unit exactly if it is a spelling of it and observes the limit on
nesting (`SourceUnit.ofJson_eq_ok_iff`).
-/

namespace FlatDecls

open Json Component Branch

/-! ### Numbers and texts -/

/-- The unsigned numbers of a width, as a range. -/
theorem fitsUnsigned_iff {bits : Nat} {i : Int} :
    fitsUnsigned bits i = true ↔ 0 ≤ i ∧ i < 2 ^ bits := by
  have power : (Decimal.pow2 bits : Int) = 2 ^ bits := Int.natCast_pow 2 bits
  rw [fitsUnsigned, power, Bool.and_eq_true, decide_eq_true_iff, decide_eq_true_iff]

/-- The signed numbers of a width, as a range around zero. -/
theorem fitsSigned_iff {bits : Nat} {i : Int} :
    fitsSigned bits i = true ↔ -2 ^ (bits - 1) ≤ i ∧ i < 2 ^ (bits - 1) := by
  have power : (Decimal.pow2 (bits - 1) : Int) = 2 ^ (bits - 1) := Int.natCast_pow 2 _
  rw [fitsSigned, power, Bool.and_eq_true, decide_eq_true_iff, decide_eq_true_iff]

/-- An unsigned number of up to 64 bits. -/
theorem reads_unsigned {α : Type} {bits : Nat} {expected : String} (toNat : α → Nat)
    (ofNat : Nat → α) (lt : ∀ w, toNat w < 2 ^ bits) (ofNat_toNat : ∀ w, ofNat (toNat w) = w)
    (toNat_ofNat : ∀ k < 2 ^ bits, toNat (ofNat k) = k) (small : bits ≤ 64) (b : Nat) :
    Reads (integer expected fun i ↦ if fitsUnsigned bits i then some (ofNat i.toNat) else none)
      (fun w ↦ .integer (toNat w)) (.unsigned bits) b := by
  have fits (w : α) : fitsUnsigned bits (toNat w) = true :=
    fitsUnsigned_iff.2 ⟨by omega, by exact_mod_cast lt w⟩
  refine reads_integer (fun i w ↦ ?_) fits (fun w ↦ ?_) fun w ↦ ?_
  · by_cases fit : fitsUnsigned bits i = true
    · have ⟨low, high⟩ := fitsUnsigned_iff.1 fit
      obtain ⟨k, rfl⟩ := Int.eq_ofNat_of_zero_le low
      have high : k < 2 ^ bits := by exact_mod_cast high
      rw [if_pos fit, Option.some_inj, Int.toNat_natCast, Int.natCast_inj]
      exact ⟨fun same ↦ same ▸ toNat_ofNat k high, fun same ↦ same ▸ ofNat_toNat w⟩
    · rw [if_neg fit]
      exact iff_of_false nofun fun same ↦ fit (same ▸ fits w)
  · have power : 0 ≤ (Decimal.pow2 63 : Int) := Int.natCast_nonneg _
    omega
  · have top : Numeral.wordMax = 2 ^ 64 - 1 := rfl
    have wide : 2 ^ bits ≤ 2 ^ 64 := Nat.pow_le_pow_right (by omega) small
    have bound := lt w
    omega

theorem reads_word32 (b : Nat) : Reads word32 (fun w ↦ .integer w.toNat) (.unsigned 32) b :=
  reads_unsigned UInt32.toNat UInt32.ofNat UInt32.toNat_lt (fun _ ↦ UInt32.ofNat_toNat)
    (fun _ h ↦ UInt32.toNat_ofNat_of_lt' h) (by omega) b

theorem reads_word64 (b : Nat) : Reads word64 (fun w ↦ .integer w.toNat) (.unsigned 64) b :=
  reads_unsigned UInt64.toNat UInt64.ofNat UInt64.toNat_lt (fun _ ↦ UInt64.ofNat_toNat)
    (fun _ h ↦ UInt64.toNat_ofNat_of_lt' h) (by omega) b

/-- A signed number is accepted exactly in the range of 64 bits with a sign. -/
theorem reads_signed64 (b : Nat) : Reads signed64 (fun w ↦ .integer w.toInt) (.signed 64) b := by
  have range (w : Int64) : -2 ^ 63 ≤ w.toInt ∧ w.toInt < 2 ^ 63 := ⟨w.le_toInt, w.toInt_lt⟩
  refine reads_integer (fun i w ↦ ?_) (fun w ↦ fitsSigned_iff.2 (range w)) (fun w ↦ ?_) fun w ↦ ?_
  · have ⟨low, high⟩ := range w
    by_cases h : -2 ^ 63 ≤ i ∧ i < 2 ^ 63
    · rw [if_pos (fitsSigned_iff.2 h), Option.some_inj, ← Int64.toInt_inj,
        Int64.toInt_ofInt_of_le h.1 h.2, eq_comm]
    · rw [if_neg (h ∘ fitsSigned_iff.1)]
      exact iff_of_false nofun (by omega)
  · have ⟨low, _⟩ := range w
    simpa [Decimal.pow2] using low
  · have ⟨_, high⟩ := range w
    have top : Numeral.wordMax = 2 ^ 64 - 1 := rfl
    omega

/-- Where a text may be absent, it is left out or null. -/
theorem reads_optionalText (b : Nat) : Reads (Json.optional text) (.optional .text) .text b :=
  reads_optional (reads_text b) fun _ ↦ nofun

/-! ### Types without recursion -/

/-- A case that carries nothing is read from null. -/
theorem reads_bare {α : Type} {name : String} {a : α} (b : Nat) :
    Reads (Branch.bare name a).case.apply (Branch.bare name a).form .text b where
  sound := by
    intro n x ok
    rcases n with ⟨_ | _⟩ | _ | _ | _
    case atom.null =>
      obtain rfl := Except.ok.inj ok
      exact ⟨⟨rfl, rfl⟩, opensAtMost_atom⟩
    all_goals cases ok
  complete := by
    rintro n x ⟨rfl, rfl⟩
    exact ⟨fun _ ↦ rfl, fun h ↦ absurd opensAtMost_atom h⟩
  tidy := by
    rintro n x ⟨rfl, rfl⟩ -
    exact tidy_atom trivial

/-- A variant whose cases carry nothing is read from their names. -/
theorem reads_names {α : Type} {cs : List α} (name : α → String) (all : ∀ a, a ∈ cs)
    (distinct : (cs.map name).Nodup) (b : Nat) :
    Reads (variant (0 < b) (cs.map fun a ↦ ⟨name a, .nothing a⟩)) (fun a ↦ .tag (name a))
      (.oneOf (cs.map name)) b := by
  have describe : Branch.Describe (cs.map fun a ↦ .bare (name a) a) (.oneOf (cs.map name)) :=
    ⟨by simpa [Function.comp_def, Branch.bare] using distinct,
      by simp [Shape.members, Branch.bare]⟩
  have branches := reads_variant (b := b) rfl describe fun d _ r hr ↦ by
    obtain ⟨a, -, rfl⟩ := List.mem_map.1 hr
    exact reads_bare d
  rw [List.map_map] at branches
  refine branches.congr fun a n ↦ ?_
  simp [all]

/-- A built-in type is read from its spelling, as a text or as an object with nothing in it. -/
theorem reads_primitive (b : Nat) :
    Reads (Primitive.decode b) Primitive.SpelledBy (.oneOf (Primitive.all.map Primitive.name)) b :=
  reads_names Primitive.name Primitive.mem_all (by decide) b

theorem reads_aggregateKind (b : Nat) :
    Reads (AggregateKind.decode b) AggregateKind.SpelledBy (.oneOf ["struct", "union"]) b :=
  have all : ∀ k, k ∈ [AggregateKind.struct, .union] := by rintro ⟨⟩ <;> simp
  reads_names AggregateKind.name all (by decide) b

/-- The branches of an array's length. -/
def ArraySize.branches : List (Branch ArraySize) :=
  [.value "constant" ArraySize.constant word64 (fun n ↦ .integer n.toNat) (.unsigned 64),
   .bare "incomplete" .incomplete,
   .bare "variable" .variableLength]

/-- The size of an array is a word or one of two cases without one. -/
theorem reads_arraySize (b : Nat) :
    Reads (ArraySize.decode b) ArraySize.SpelledBy .arraySize b := by
  have describe : Branch.Describe ArraySize.branches .arraySize :=
    ⟨by decide, rfl⟩
  refine (reads_variant rfl describe fun d _ ↦ ?_).congr fun a n ↦ ?_
  · simp only [ArraySize.branches, List.forall_mem_cons]
    exact ⟨(reads_word64 d).map ArraySize.constant, reads_bare d, reads_bare d, nofun⟩
  · cases a <;> simp [ArraySize.branches, ArraySize.SpelledBy]

/-! ### Declarations without recursion -/

/-- The components of an enumeration's constant. -/
def Enumerator.components : List (Component Enumerator) :=
  [⟨"name", true, text, fun s e ↦ { e with name := s }, (·.name), .text, .text⟩,
   ⟨"value", true, signed64, fun v e ↦ { e with value := v }, (·.value),
     fun v ↦ .integer v.toInt, .signed 64⟩,
   ⟨"documentation", false, Json.optional text, fun d e ↦ { e with documentation := d },
     (·.documentation), .optional .text, .text⟩]

theorem Enumerator.lawful_components : Lawful components where
  distinct := by decide
  get_put := by simp [components]
  get_put_of_ne := by simp [components]
  ext := by
    rintro ⟨⟩ ⟨⟩
    simp [components]

/-- A constant is read from an object or an array by the lemma on records. -/
theorem reads_enumerator (b : Nat) :
    Reads (Enumerator.decode b) Enumerator.SpelledBy .enumerator b := by
  refine reads_record rfl Enumerator.lawful_components ⟨rfl, fun _ ↦ rfl⟩ fun d _ ↦ ?_
  simp only [Enumerator.components, List.forall_mem_cons]
  exact ⟨reads_text d, reads_signed64 d, reads_optionalText d, nofun⟩

/-- The components of an enumeration, with a reader of its constants. -/
def Enumeration.components (members : Node → Decoded (List Enumerator)) :
    List (Component Enumeration) :=
  [⟨"name", false, Json.optional text, fun s e ↦ { e with name := s }, (·.name),
     .optional .text, .text⟩,
   ⟨"members", false, members, fun ms e ↦ { e with members := ms }, (·.members),
     fun ms ↦ .list (ms.map Enumerator.SpelledBy), .list .enumerator⟩,
   ⟨"documentation", false, Json.optional text, fun d e ↦ { e with documentation := d },
     (·.documentation), .optional .text, .text⟩]

theorem Enumeration.lawful_components (members : Node → Decoded (List Enumerator)) :
    Lawful (components members) where
  distinct := by simp [components]
  get_put := by simp [components]
  get_put_of_ne := by simp [components]
  ext := by
    rintro ⟨⟩ ⟨⟩
    simp [components]

/-- An enumeration is read one container further out than its constants. -/
theorem reads_enumeration (b : Nat) :
    Reads (Enumeration.decode b) Enumeration.SpelledBy .enumeration b := by
  have lawful := Enumeration.lawful_components (Json.sequence (1 < b) (Enumerator.decode (b - 2)))
  refine reads_record rfl lawful ⟨rfl, fun _ ↦ rfl⟩ ?_
  rintro d rfl
  simp only [Enumeration.components, List.forall_mem_cons]
  refine ⟨reads_optionalText d, reads_sequence (by simp) ?_, reads_optionalText d, nofun⟩
  rintro c rfl
  exact reads_enumerator c

/-! ### Types -/

/-- The components of an array type: its element and its size. -/
def TypeRef.arrayComponents (element : Node → Decoded TypeRef) (size : Node → Decoded ArraySize) :
    List (Component (TypeRef × ArraySize)) :=
  [⟨"element", true, element, fun t p ↦ (t, p.2), (·.1), TypeRef.SpelledBy, .typeRef⟩,
   ⟨"size", true, size, fun s p ↦ (p.1, s), (·.2), ArraySize.SpelledBy, .arraySize⟩]

theorem TypeRef.lawful_arrayComponents (element : Node → Decoded TypeRef)
    (size : Node → Decoded ArraySize) : Lawful (arrayComponents element size) where
  distinct := by simp [arrayComponents]
  get_put := by simp [arrayComponents]
  get_put_of_ne := by simp [arrayComponents]
  ext := by
    rintro ⟨⟩ ⟨⟩
    simp [arrayComponents]

/-- The element and size of an array type are spelled so. -/
def TypeRef.ArraySpelledBy : TypeRef → Form
  | array t size =>
    .record [FieldForm.mandatory "element" t.SpelledBy, FieldForm.mandatory "size" size.SpelledBy]
  | _ => fun _ ↦ False

/-- An array's parts are read if its element type and its size are, in one container less. -/
theorem reads_arrayParts {b : Nat} {canOpen : Bool} {element : Node → Decoded TypeRef}
    {size : Node → Decoded ArraySize} (opens : canOpen = decide (0 < b))
    (elements : ∀ d, b = d + 1 → Reads element TypeRef.SpelledBy .typeRef d)
    (sizes : ∀ d, b = d + 1 → Reads size ArraySize.SpelledBy .arraySize d) :
    Reads (TypeRef.arrayParts canOpen element size) TypeRef.ArraySpelledBy .arrayType b := by
  have parts : Reads
      (record canOpen "struct variant TypeRef::Array"
        ((TypeRef.arrayComponents element size).map slot) (.primitive .void, .incomplete))
      (fun p ↦ .record [FieldForm.mandatory "element" p.1.SpelledBy,
        FieldForm.mandatory "size" p.2.SpelledBy]) .arrayType b := by
    refine reads_record opens (TypeRef.lawful_arrayComponents element size) ⟨rfl, fun _ ↦ rfl⟩ ?_
    intro d hd
    simp only [TypeRef.arrayComponents, List.forall_mem_cons]
    exact ⟨elements d hd, sizes d hd, nofun⟩
  refine (parts.map fun p ↦ TypeRef.array p.1 p.2).congr fun t n ↦ ?_
  cases t <;> simp [TypeRef.ArraySpelledBy]

/-- The branches of a type, with a reader of types and one of the fields of an array type. -/
def TypeRef.branches (b : Nat) (inner array : Node → Decoded TypeRef) : List (Branch TypeRef) :=
  [.value "primitive" TypeRef.primitive (Primitive.decode b) Primitive.SpelledBy
     (.oneOf (Primitive.all.map Primitive.name)),
   .value "pointer" TypeRef.pointer inner TypeRef.SpelledBy .typeRef,
   .fields "array" array TypeRef.ArraySpelledBy .arrayType,
   .value "nested" TypeRef.nested word64 (fun i ↦ .integer i.toNat) (.unsigned 64),
   .value "named" TypeRef.named text .text .text]

/-- A type is read if the types and the array parts inside it are, which may be at any depth: this
is the step of the induction for types. -/
theorem reads_typeCases {b c : Nat} {canOpen : Bool} {inner array : Node → Decoded TypeRef}
    (opens : canOpen = decide (0 < b))
    (reads : ∀ d, b = d + 1 → d = c ∧ Reads inner TypeRef.SpelledBy .typeRef d ∧
      Reads array TypeRef.ArraySpelledBy .arrayType d) :
    Reads (variant canOpen (TypeRef.cases c inner array)) TypeRef.SpelledBy .typeRef b := by
  have describe : Branch.Describe (TypeRef.branches c inner array) .typeRef :=
    ⟨by simp [TypeRef.branches, Branch.value, Branch.fields], rfl⟩
  refine (reads_variant opens describe fun d hd ↦ ?_).congr fun t n ↦ ?_
  · obtain ⟨rfl, inner, array⟩ := reads d hd
    simp only [TypeRef.branches, List.forall_mem_cons]
    exact ⟨(reads_primitive d).map TypeRef.primitive, inner.map TypeRef.pointer, array,
      (reads_word64 d).map TypeRef.nested, (reads_text d).map TypeRef.named,
      List.forall_mem_nil _⟩
  · cases t <;> simp [TypeRef.branches, TypeRef.SpelledBy, TypeRef.ArraySpelledBy, Form.tagged]

/-- A type and the fields of an array type are read by induction on the containers that may be
opened. -/
theorem reads_types (b : Nat) : Reads (TypeRef.decode b) TypeRef.SpelledBy .typeRef b ∧
    Reads (TypeRef.decodeArray b) TypeRef.ArraySpelledBy .arrayType b := by
  induction b with
  | zero =>
    rw [TypeRef.decode, TypeRef.decodeArray]
    exact ⟨reads_typeCases rfl nofun, reads_arrayParts rfl nofun nofun⟩
  | succ b ih =>
    rw [TypeRef.decode, TypeRef.decodeArray]
    refine ⟨reads_typeCases rfl ?_, reads_arrayParts rfl ?_ ?_⟩
    · rintro d ⟨⟩
      exact ⟨rfl, ih⟩
    · rintro d ⟨⟩
      exact ih.1
    · rintro d ⟨⟩
      exact reads_arraySize b

/-! ### Declarations -/

/-- The components of a field, with a reader of types. -/
def Field.components (type : Node → Decoded TypeRef) : List (Component Field) :=
  [⟨"name", true, text, fun s f ↦ { f with name := s }, (·.name), .text, .text⟩,
   ⟨"ty", true, type, fun t f ↦ { f with type := t }, (·.type), TypeRef.SpelledBy, .typeRef⟩,
   ⟨"bit_width", false, Json.optional word32, fun w f ↦ { f with bitWidth := w }, (·.bitWidth),
     .optional fun w ↦ .integer w.toNat, .unsigned 32⟩,
   ⟨"documentation", false, Json.optional text, fun d f ↦ { f with documentation := d },
     (·.documentation), .optional .text, .text⟩]

theorem Field.lawful_components (type : Node → Decoded TypeRef) : Lawful (components type) where
  distinct := by simp [components]
  get_put := by simp [components]
  get_put_of_ne := by simp [components]
  ext := by
    rintro ⟨⟩ ⟨⟩
    simp [components]

/-- A field's type may open as many containers as are left inside the field. -/
theorem reads_field (b : Nat) : Reads (Field.decode b) Field.SpelledBy .field b := by
  refine reads_record rfl (Field.lawful_components (TypeRef.decode (b - 1))) ⟨rfl, fun _ ↦ rfl⟩ ?_
  rintro d rfl
  have width : Reads (Json.optional word32) (.optional fun w ↦ .integer w.toNat) (.unsigned 32) d :=
    reads_optional (reads_word32 d) (by rintro w ⟨m, ⟨⟩, -⟩)
  simp only [Field.components, List.forall_mem_cons]
  exact ⟨reads_text d, (reads_types d).1, width, reads_optionalText d, nofun⟩

/-- The components of an aggregate, with readers of its kind, its fields and its declarations. -/
def Aggregate.components (kind : Node → Decoded AggregateKind)
    (fields : Node → Decoded (List Field)) (declarations : Node → Decoded (List Declaration)) :
    List (Component Aggregate) :=
  [⟨"name", false, Json.optional text, fun s a ↦ { a with name := s }, (·.name),
     .optional .text, .text⟩,
   ⟨"kind", false, kind, fun k a ↦ { a with kind := k }, (·.kind), AggregateKind.SpelledBy,
     .oneOf ["struct", "union"]⟩,
   ⟨"fields", false, fields, fun fs a ↦ { a with fields := fs }, (·.fields),
     fun fs ↦ .list (fs.map Field.SpelledBy), .list .field⟩,
   ⟨"declarations", false, declarations, fun ds a ↦ { a with declarations := ds },
     (·.declarations), fun ds ↦ .list (ds.map Declaration.SpelledBy), .list .declaration⟩,
   ⟨"documentation", false, Json.optional text, fun d a ↦ { a with documentation := d },
     (·.documentation), .optional .text, .text⟩]

theorem Aggregate.lawful_components (kind : Node → Decoded AggregateKind)
    (fields : Node → Decoded (List Field)) (declarations : Node → Decoded (List Declaration)) :
    Lawful (components kind fields declarations) where
  distinct := by simp [components]
  get_put := by simp [components]
  get_put_of_ne := by simp [components]
  ext := by
    rintro ⟨⟩ ⟨⟩
    simp [components]

/-- An aggregate is read if the declarations in its body are, in one container less. -/
theorem reads_aggregateSlots {b c : Nat} {canOpen : Bool}
    {declarations : Node → Decoded (List Declaration)} (opens : canOpen = decide (0 < b))
    (reads : ∀ d, b = d + 1 → d = c ∧
      Reads declarations (fun ds ↦ .list (ds.map Declaration.SpelledBy)) (.list .declaration) d) :
    Reads (record canOpen "struct AggregateDecl" (Aggregate.slots c declarations) {})
      Aggregate.SpelledBy .aggregate b := by
  have lawful := Aggregate.lawful_components (AggregateKind.decode c)
    (Json.sequence (0 < c) (Field.decode (c - 1))) declarations
  refine (reads_record opens lawful ⟨rfl, fun _ ↦ rfl⟩ fun d hd ↦ ?_).congr fun a n ↦ ?_
  · obtain ⟨rfl, declarations⟩ := reads d hd
    simp only [Aggregate.components, List.forall_mem_cons]
    refine ⟨reads_optionalText d, reads_aggregateKind d, reads_sequence rfl ?_, declarations,
      reads_optionalText d, nofun⟩
    rintro c rfl
    exact reads_field c
  · rcases a with ⟨name, kind, fields, declarations, documentation⟩
    rw [Aggregate.SpelledBy, Declaration.spellings_eq_map]
    rfl

/-- The branches of a declaration, with a reader of aggregates. -/
def Declaration.branches (b : Nat) (aggregate : Node → Decoded Aggregate) :
    List (Branch Declaration) :=
  [.value "aggregate" Declaration.aggregate aggregate Aggregate.SpelledBy .aggregate,
   .value "enumeration" Declaration.enumeration (Enumeration.decode b) Enumeration.SpelledBy
     .enumeration]

/-- A declaration is read if the aggregates inside it are. -/
theorem reads_declarationCases {b c : Nat} {canOpen : Bool} {aggregate : Node → Decoded Aggregate}
    (opens : canOpen = decide (0 < b))
    (reads : ∀ d, b = d + 1 → d = c ∧ Reads aggregate Aggregate.SpelledBy .aggregate d) :
    Reads (variant canOpen (Declaration.cases c aggregate)) Declaration.SpelledBy .declaration
      b := by
  have describe : Branch.Describe (Declaration.branches c aggregate) .declaration :=
    ⟨by simp [Declaration.branches, Branch.value], rfl⟩
  refine (reads_variant opens describe fun d hd ↦ ?_).congr fun x n ↦ ?_
  · obtain ⟨rfl, aggregate⟩ := reads d hd
    simp only [Declaration.branches, List.forall_mem_cons]
    exact ⟨aggregate.map Declaration.aggregate, (reads_enumeration d).map Declaration.enumeration,
      List.forall_mem_nil _⟩
  · cases x <;> simp [Declaration.branches, Declaration.SpelledBy]

/-- Aggregates, their declarations, and declarations are read by induction on the containers that
may be opened. -/
theorem reads_declarations (b : Nat) :
    Reads (Aggregate.decode b) Aggregate.SpelledBy .aggregate b ∧
    Reads (Declaration.decodeList b) (fun ds ↦ .list (ds.map Declaration.SpelledBy))
      (.list .declaration) b ∧
    Reads (Declaration.decode b) Declaration.SpelledBy .declaration b := by
  induction b with
  | zero =>
    rw [Aggregate.decode, Declaration.decodeList, Declaration.decode]
    exact ⟨reads_aggregateSlots rfl nofun, reads_sequence rfl nofun,
      reads_declarationCases rfl nofun⟩
  | succ b ih =>
    have ⟨aggregate, declarations, declaration⟩ := ih
    rw [Aggregate.decode, Declaration.decodeList, Declaration.decode]
    refine ⟨reads_aggregateSlots rfl ?_, reads_sequence rfl ?_, reads_declarationCases rfl ?_⟩
    · rintro d ⟨⟩
      exact ⟨rfl, declarations⟩
    · rintro d ⟨⟩
      exact declaration
    · rintro d ⟨⟩
      exact ⟨rfl, aggregate⟩

/-! ### Source units -/

/-- The branches of the target of an alias. -/
def AliasTarget.branches (b : Nat) : List (Branch AliasTarget) :=
  [.value "aggregate" AliasTarget.aggregate (Aggregate.decode (b - 1)) Aggregate.SpelledBy
     .aggregate,
   .value "type" AliasTarget.type (TypeRef.decode (b - 1)) TypeRef.SpelledBy .typeRef]

/-- What an alias stands for is read as an aggregate or as a type. -/
theorem reads_aliasTarget (b : Nat) :
    Reads (AliasTarget.decode b) AliasTarget.SpelledBy .aliasTarget b := by
  have describe : Branch.Describe (AliasTarget.branches b) .aliasTarget :=
    ⟨by simp [AliasTarget.branches, Branch.value], rfl⟩
  refine (reads_variant rfl describe ?_).congr fun t n ↦ ?_
  · rintro d rfl
    simp only [AliasTarget.branches, List.forall_mem_cons]
    exact ⟨(reads_declarations d).1.map AliasTarget.aggregate,
      (reads_types d).1.map AliasTarget.type, List.forall_mem_nil _⟩
  · cases t <;> simp [AliasTarget.branches, AliasTarget.SpelledBy]

/-- The components of an alias. -/
def Alias.components (b : Nat) : List (Component Alias) :=
  [⟨"name", true, text, fun s a ↦ { a with name := s }, (·.name), .text, .text⟩,
   ⟨"target", true, AliasTarget.decode (b - 1), fun t a ↦ { a with target := t }, (·.target),
     AliasTarget.SpelledBy, .aliasTarget⟩]

theorem Alias.lawful_components (b : Nat) : Lawful (components b) where
  distinct := by simp [components]
  get_put := by simp [components]
  get_put_of_ne := by simp [components]
  ext := by
    rintro ⟨⟩ ⟨⟩
    simp [components]

theorem reads_alias (b : Nat) : Reads (Alias.decode b) Alias.SpelledBy .typeAlias b := by
  refine reads_record rfl (Alias.lawful_components b) ⟨rfl, fun _ ↦ rfl⟩ ?_
  rintro d rfl
  simp only [Alias.components, List.forall_mem_cons]
  exact ⟨reads_text d, reads_aliasTarget d, nofun⟩

/-- The components of a source unit. -/
def SourceUnit.components (b : Nat) : List (Component SourceUnit) :=
  [⟨"declarations", false, Declaration.decodeList (b - 1),
     fun ds u ↦ { u with declarations := ds }, (·.declarations),
     fun ds ↦ .list (ds.map Declaration.SpelledBy), .list .declaration⟩,
   ⟨"aliases", false, Json.sequence (1 < b) (Alias.decode (b - 2)),
     fun xs u ↦ { u with aliases := xs }, (·.aliases),
     fun xs ↦ .list (xs.map Alias.SpelledBy), .list .typeAlias⟩]

theorem SourceUnit.lawful_components (b : Nat) : Lawful (components b) where
  distinct := by simp [components]
  get_put := by simp [components]
  get_put_of_ne := by simp [components]
  ext := by
    rintro ⟨⟩ ⟨⟩
    simp [components]

/-- A source unit is read with as many containers as the limit allows. -/
theorem reads_sourceUnit (b : Nat) :
    Reads (SourceUnit.decode b) SourceUnit.SpelledBy .sourceUnit b := by
  refine reads_record rfl (SourceUnit.lawful_components b) ⟨rfl, fun _ ↦ rfl⟩ ?_
  rintro d rfl
  simp only [SourceUnit.components, List.forall_mem_cons]
  refine ⟨(reads_declarations d).2.1, reads_sequence (by simp) ?_, nofun⟩
  rintro c rfl
  exact reads_alias c

/-! ### Texts -/

variable {u : SourceUnit} {text : String} {n : Node}

/-- A text of a tree is decoded as the tree. -/
theorem Json.decode_of_written {α : Type} (read : Node → Decoded α) (h : n.Written text) :
    Json.decode read text = read n := by
  have document := (Document.read_eq_iff.2 h).1
  rw [Json.decode, document]
  cases read n <;> rfl

/-- How deeply a text is nested is a question of its tree alone, since it has only one. -/
theorem nestedAtMost_iff {b : Nat} (h : n.Written text) :
    NestedAtMost b text ↔ OpensAtMost b .sourceUnit n :=
  ⟨fun most ↦ most n h, fun most _ h' ↦ h.unique h' ▸ most⟩

namespace SourceUnit

/-- A spelling of a source unit is accepted if it observes the limit on nesting, and refused for its
nesting otherwise. -/
theorem yields_of_spelling (h : u.Spelling text) :
    Yields (NestedAtMost nestingLimit text) u (ofJson text) := by
  obtain ⟨n, written, spelled⟩ := h
  rw [ofJson, decode_of_written _ written]
  exact ((reads_sourceUnit nestingLimit).complete spelled).congr (nestedAtMost_iff written).symm

/-- What is accepted is a tree that is all there with nothing behind it. -/
theorem exists_written_of_ofJson (h : ofJson text = .ok u) :
    ∃ n, n.Written text ∧ u.SpelledBy n ∧ OpensAtMost nestingLimit .sourceUnit n := by
  obtain ⟨_, read, last⟩ := eq_ok_of_bind h
  split at last
  next => cases last
  next behind =>
    obtain rfl := Except.ok.inj last
    have ⟨spelled, most⟩ := (reads_sourceUnit nestingLimit).sound read
    have whole := ((reads_sourceUnit nestingLimit).tidy spelled most).whole
    -- a tree that is read without a fault has no break, and nothing was noted behind it
    have document : Document.read text = ⟨(Document.read text).root, false⟩ := by
      rw [← Bool.eq_false_iff.2 behind]
    exact ⟨_, Document.read_eq_iff.1 ⟨document, whole⟩, spelled, most⟩

/-- A text is accepted as a source unit exactly if it is a spelling of it in which no more than 127
containers are open at once, ignored values not counted. Of a text that is accepted all that is read
is in order: no known key is repeated, and every number is an integer in its range. -/
theorem ofJson_eq_ok_iff (text : String) (u : SourceUnit) :
    (ofJson text = .ok u ↔ u.Spelling text ∧ NestedAtMost 127 text) ∧
      (ofJson text = .ok u → ∀ n, n.Written text → Tidy .sourceUnit n) := by
  refine ⟨⟨fun h ↦ ?_, fun ⟨spelling, most⟩ ↦ (yields_of_spelling spelling).ok most⟩, fun h ↦ ?_⟩
  · obtain ⟨n, written, spelled, most⟩ := exists_written_of_ofJson h
    exact ⟨⟨n, written, spelled⟩, (nestedAtMost_iff written).2 most⟩
  · intro m also
    obtain ⟨n, written, spelled, most⟩ := exists_written_of_ofJson h
    exact also.unique written ▸ (reads_sourceUnit nestingLimit).tidy spelled most

/-- A source unit whose only alias stands for a built-in type. The second character of its name
takes two code units. -/
def intAlias : SourceUnit where
  aliases := [{ name := "T😀", target := .type (.primitive .int) }]

/-- A text with escapes in a key and in a text, there with a surrogate pair, an alias as an array, a
case as an object, and a repeated unknown key with values that no description could hold. -/
def intAliasText : String :=
  "\x7b\"x\": [1e9, [-0]], \"\\u0061liases\": [[\"\\u0054\\ud83d\\uDE00\", \x7b\"type\": " ++
    "\x7b\"primitive\": \x7b\"int\": null\x7d\x7d\x7d]], \"x\": \"\\ud800\"\x7d"

open Json.Token Json.Atom in
/-- The key with an escape is taken for the known key, the pair of escapes for one character, and
the unknown key may hold what stands for no text. -/
theorem spelling_intAliasText : ofJson intAliasText = .ok intAlias ∧
    intAlias.Spelling intAliasText ∧ NestedAtMost 127 intAliasText := by
  -- the escape without a partner is remembered and not refused, for its value may be ignored
  have scanned : tokens intAliasText =
      [openObject,
        atom (string "x"), colon, openArray, atom (number ⟨false, [1], [], some (false, [9])⟩),
          comma, openArray, atom (number ⟨true, [0], [], none⟩), closeArray, closeArray, comma,
        atom (string "aliases"), colon, openArray, openArray, atom (string "T😀"), comma,
          openObject, atom (string "type"), colon,
            openObject, atom (string "primitive"), colon,
              openObject, atom (string "int"), colon, atom null,
              closeObject, closeObject, closeObject, closeArray, closeArray, comma,
        atom (string "x"), colon, atom (loneSurrogate .cutSurrogate), closeObject] := by
    decide +kernel
  have accepted : ofJson intAliasText = .ok intAlias := by
    rw [ofJson, Json.decode, Document.read, scanned]
    rfl
  exact ⟨accepted, (ofJson_eq_ok_iff intAliasText intAlias).1.1 accepted⟩

end SourceUnit

end FlatDecls
