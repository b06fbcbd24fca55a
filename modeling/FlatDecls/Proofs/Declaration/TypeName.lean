import Mathlib.Data.List.Basic
import FlatDecls.Proofs.Naming
import FlatDecls.Text.Digit

/-!
# Types read back from their names

A type is a base with *layers* around it: pointers and arrays. Its name is that of the base and one
mark for each layer, innermost first. No mark is the beginning of another, although `*` is a mark of
its own and stands in `[*]` too, so the marks say which layers there are
(`Layer.marks_injective`). The first mark begins with the first `*` or `[` of the name unless the
base has one of these, so the name of the base can be told from the marks. That leaves the base: a
declared name can be that of a built-in type, and where it is not, the name of a type says which
type it is (`TypeRef.typeName_readable`).
-/

namespace FlatDecls

namespace ArraySize

theorem toList_text_constant (length : UInt64) :
    (constant length).text.toList = Nat.toDigits 10 length.toNat := by
  show length.toNat.repr.toList = _
  rw [Nat.toList_repr]

/-- The brackets around a size contain none. -/
theorem bracket_notMem_text (size : ArraySize) : ']' ∉ size.text.toList := by
  cases size with
  | constant length =>
    intro h
    rw [toList_text_constant] at h
    exact absurd (Nat.isDigit_of_mem_toDigits (by omega) (by omega) h) (by decide)
  | incomplete => decide
  | variableLength => decide

/-- The digits of a length are not the text of an open size. -/
theorem text_constant_ne {length : UInt64} {size : ArraySize}
    (h : (constant length).text.toList = size.text.toList) : size = constant length := by
  rw [toList_text_constant] at h
  cases size with
  | constant length' =>
    rw [toList_text_constant] at h
    rw [UInt64.toNat_inj.1 (Text.toDigits_injective h)]
  | incomplete => exact absurd h Nat.toDigits_ne_nil
  | variableLength =>
    have star : '*' ∈ Nat.toDigits 10 length.toNat := h ▸ List.mem_singleton_self '*'
    exact absurd (Nat.isDigit_of_mem_toDigits (by omega) (by omega) star) (by decide)

/-- Sizes with the same text are the same. -/
theorem text_injective {size size' : ArraySize} (h : size.text.toList = size'.text.toList) :
    size = size' := by
  cases size with
  | constant length => exact (text_constant_ne h).symm
  | incomplete =>
    cases size' with
    | constant length => exact text_constant_ne h.symm
    | incomplete => rfl
    | variableLength => exact absurd h (by decide)
  | variableLength =>
    cases size' with
    | constant length => exact text_constant_ne h.symm
    | incomplete => exact absurd h (by decide)
    | variableLength => rfl

end ArraySize

/-! ### Layers -/

/-- What stands around a type in a larger one. -/
inductive Layer
  | pointer
  | array (size : ArraySize)

namespace Layer

/-- The type with a layer around it. -/
def around : Layer → TypeRef → TypeRef
  | pointer, t => .pointer t
  | array size, t => .array t size

/-- What a layer adds to a name. -/
def mark : Layer → List Char
  | pointer => ['*']
  | array size => '[' :: size.text.toList ++ [']']

/-- What layers add to a name, the innermost first. -/
def marks (ls : List Layer) : List Char := ls.flatMap mark

variable {l m : Layer} {ls ms : List Layer}

theorem marks_cons : marks (l :: ls) = l.mark ++ marks ls := List.flatMap_cons

/-- A text without brackets ends at the first one. -/
theorem append_bracket_inj {xs ys us vs : List Char} (hx : ']' ∉ xs) (hy : ']' ∉ ys)
    (h : xs ++ ']' :: us = ys ++ ']' :: vs) : xs = ys ∧ us = vs := by
  have first {zs : List Char} (hz : ']' ∉ zs) (ws : List Char) :
      (zs ++ ']' :: ws).takeWhile (· ≠ ']') = zs := by
    have before : ∀ c ∈ zs, decide (c ≠ ']') = true :=
      fun c hc ↦ decide_eq_true fun same ↦ hz (same ▸ hc)
    rw [List.takeWhile_append_of_pos before]
    simp
  have same : xs = ys := by rw [← first hx us, h, first hy]
  subst same
  exact ⟨rfl, (List.cons.inj (List.append_cancel_left h)).2⟩

/-- A mark can be told from what follows it. -/
theorem mark_append_inj {xs ys : List Char} (h : l.mark ++ xs = m.mark ++ ys) :
    l = m ∧ xs = ys := by
  cases l with
  | pointer =>
    cases m with
    | pointer => exact ⟨rfl, List.append_cancel_left h⟩
    | array size => cases h
  | array size =>
    cases m with
    | pointer => cases h
    | array size' =>
      simp only [mark, List.cons_append, List.append_assoc, List.cons.injEq, true_and] at h
      obtain ⟨text, rest⟩ := append_bracket_inj size.bracket_notMem_text
        size'.bracket_notMem_text h
      exact ⟨congrArg array (ArraySize.text_injective text), rest⟩

theorem mark_ne_nil : l.mark ≠ [] := by
  cases l <;> simp [mark]

/-- The marks say which layers there are, and in which order. -/
theorem marks_injective (h : marks ls = marks ms) : ls = ms := by
  induction ls generalizing ms with
  | nil =>
    cases ms with
    | nil => rfl
    | cons m ms => exact absurd (List.append_eq_nil_iff.1 h.symm).1 mark_ne_nil
  | cons l ls ih =>
    cases ms with
    | nil => exact absurd (List.append_eq_nil_iff.1 h).1 mark_ne_nil
    | cons m ms =>
      rw [marks_cons, marks_cons] at h
      obtain ⟨rfl, rest⟩ := mark_append_inj h
      rw [ih rest]

end Layer

namespace TypeRef

/-- The type at the end of the chain of pointers and arrays. -/
def base : TypeRef → TypeRef
  | pointer t => t.base
  | array t _ => t.base
  | t => t

/-- The chain of pointers and arrays, innermost first. -/
def layers : TypeRef → List Layer
  | pointer t => t.layers ++ [.pointer]
  | array t size => t.layers ++ [.array size]
  | _ => []

/-- A type is its base with its layers around. -/
theorem foldl_around_base (t : TypeRef) : t.layers.foldl (fun u l ↦ l.around u) t.base = t := by
  induction t with
  | pointer t ih =>
    rw [layers, base, List.foldl_append, ih]
    rfl
  | array t size ih =>
    rw [layers, base, List.foldl_append, ih]
    rfl
  | _ => rfl

theorem eq_of_base_eq {t u : TypeRef} (base : t.base = u.base) (layers : t.layers = u.layers) :
    t = u := by
  rw [← foldl_around_base t, base, layers, foldl_around_base]

theorem nestedBase?_base (t : TypeRef) : t.base.nestedBase? = t.nestedBase? := by
  induction t with
  | pointer t ih => exact ih
  | array t size ih => exact ih
  | _ => rfl

/-- A base has no layers of its own. -/
theorem base_cases (t : TypeRef) :
    (∃ p, t.base = primitive p) ∨ (∃ i, t.base = nested i) ∨ ∃ n, t.base = named n := by
  induction t with
  | primitive p => exact .inl ⟨p, rfl⟩
  | pointer t ih => exact ih
  | array t size ih => exact ih
  | nested i => exact .inr (.inl ⟨i, rfl⟩)
  | named n => exact .inr (.inr ⟨n, rfl⟩)

theorem nestedBase?_eq_some_iff {t : TypeRef} {i : UInt64} :
    t.nestedBase? = some i ↔ t.base = nested i := by
  rw [← nestedBase?_base]
  obtain ⟨p, h⟩ | ⟨j, h⟩ | ⟨n, h⟩ := t.base_cases <;> simp [h, nestedBase?]

/-- The name of a type is that of its base with the marks of its layers behind it. -/
theorem toList_spelling {t : TypeRef} (h : t.nestedBase? = none) :
    t.spelling.toList = t.base.spelling.toList ++ Layer.marks t.layers := by
  induction t with
  | primitive p => exact (List.append_nil _).symm
  | named n => exact (List.append_nil _).symm
  | nested i => cases h
  | pointer t ih =>
    rw [spelling_pointer (t := t) h, String.toList_append, ih h, base, layers, Layer.marks,
      Layer.marks, List.flatMap_append, List.append_assoc]
    rfl
  | array t size ih =>
    rw [spelling_array (t := t) size h, String.toList_append, String.toList_append,
      String.toList_append, ih h, base, layers, Layer.marks, Layer.marks, List.flatMap_append]
    simp [Layer.mark]

/-! ### Readable types -/

/-- The base of the type is no nested declaration, and if it is a declared name, then one without
`*` and `[` that is not that of a built-in type. -/
structure Readable (t : TypeRef) : Prop where
  named : ∀ i, t.base ≠ .nested i
  plain : ∀ n, t.base = .named n →
    '*' ∉ n.toList ∧ '[' ∉ n.toList ∧ ∀ p : Primitive, n ≠ p.name

namespace Readable

variable {t u : TypeRef}

theorem nestedBase?_eq_none (h : t.Readable) : t.nestedBase? = none :=
  Option.eq_none_iff_forall_ne_some.2 fun i nested ↦ h.named i (nestedBase?_eq_some_iff.1 nested)

/-- No mark begins within the name of the base. -/
theorem marks_notMem_base (h : t.Readable) :
    '*' ∉ t.base.spelling.toList ∧ '[' ∉ t.base.spelling.toList := by
  obtain ⟨p, base⟩ | ⟨i, base⟩ | ⟨n, base⟩ := t.base_cases
  · have builtIn : ∀ p ∈ Primitive.all, '*' ∉ p.name.toList ∧ '[' ∉ p.name.toList := by decide
    rw [base]
    exact builtIn p p.mem_all
  · exact absurd base (h.named i)
  · rw [base]
    exact ⟨(h.plain n base).1, (h.plain n base).2.1⟩

/-- The name of the base is what stands before the first mark. -/
theorem takeWhile_spelling (h : t.Readable) :
    t.spelling.toList.takeWhile (fun c ↦ c ≠ '*' ∧ c ≠ '[') = t.base.spelling.toList := by
  obtain ⟨star, bracket⟩ := h.marks_notMem_base
  have plain : ∀ c ∈ t.base.spelling.toList, decide (c ≠ '*' ∧ c ≠ '[') = true := by
    intro c hc
    exact decide_eq_true ⟨fun same ↦ star (same ▸ hc), fun same ↦ bracket (same ▸ hc)⟩
  rw [toList_spelling h.nestedBase?_eq_none, List.takeWhile_append_of_pos plain]
  cases t.layers with
  | nil => exact List.append_nil _
  | cons l ls =>
    rw [Layer.marks_cons]
    cases l <;> simp [Layer.mark]

/-- Bases with the same name are the same. -/
theorem base_eq_of_spelling (ht : t.Readable) (hu : u.Readable)
    (h : t.base.spelling = u.base.spelling) : t.base = u.base := by
  obtain ⟨p, base⟩ | ⟨i, base⟩ | ⟨n, base⟩ := t.base_cases
  · obtain ⟨q, base'⟩ | ⟨j, base'⟩ | ⟨m, base'⟩ := u.base_cases
    · rw [base, base'] at h ⊢
      rw [Primitive.name_injective h]
    · exact absurd base' (hu.named j)
    · rw [base, base'] at h
      exact absurd h.symm ((hu.plain m base').2.2 p)
  · exact absurd base (ht.named i)
  · obtain ⟨q, base'⟩ | ⟨j, base'⟩ | ⟨m, base'⟩ := u.base_cases
    · rw [base, base'] at h
      exact absurd h ((ht.plain n base).2.2 q)
    · exact absurd base' (hu.named j)
    · rw [base, base'] at h ⊢
      rw [show n = m from h]

/-- The name says the base and the layers. -/
theorem eq_of_spelling (ht : t.Readable) (hu : u.Readable) (h : t.spelling = u.spelling) :
    t = u := by
  have base : t.base.spelling.toList = u.base.spelling.toList := by
    rw [← ht.takeWhile_spelling, h, hu.takeWhile_spelling]
  have marks : Layer.marks t.layers = Layer.marks u.layers := by
    have whole := congrArg String.toList h
    rw [toList_spelling ht.nestedBase?_eq_none, toList_spelling hu.nestedBase?_eq_none, base]
      at whole
    exact List.append_cancel_left whole
  exact eq_of_base_eq (ht.base_eq_of_spelling hu (String.toList_inj.1 base))
    (Layer.marks_injective marks)

end Readable

/-- Naming a type fails exactly if its chain of pointers and arrays ends in a nested declaration,
and then says which. Readable types have the same name exactly if they are the same. -/
theorem typeName_readable :
    (∀ (t : TypeRef) (e : UnnamedType), t.typeName = .error e ↔ t.base = .nested e.index) ∧
      ∀ t u : TypeRef, t.Readable → u.Readable → (t.typeName = u.typeName ↔ t = u) := by
  refine ⟨fun t e ↦ ?_, fun t u ht hu ↦ ⟨fun same ↦ ?_, fun same ↦ congrArg typeName same⟩⟩
  · rw [typeName_eq, ← nestedBase?_eq_some_iff]
    cases t.nestedBase? with
    | none => simp
    | some i => cases e with | mk j => simp
  · rw [typeName_of_nestedBase?_eq_none ht.nestedBase?_eq_none,
      typeName_of_nestedBase?_eq_none hu.nestedBase?_eq_none] at same
    exact ht.eq_of_spelling hu (Except.ok.inj same)

/-- A pointer to an array, and an array of pointers. The name of the base ends like an array. -/
theorem typeName_readable_brackets :
    (pointer (array (named "a]") .variableLength)).Readable ∧
      (array (pointer (named "a]")) .variableLength).Readable ∧
      (pointer (array (named "a]") .variableLength)).typeName = .ok "a][*]*" ∧
      (array (pointer (named "a]")) .variableLength).typeName = .ok "a]*[*]" ∧
      (pointer (array (named "a]") .variableLength)).typeName ≠
        (array (pointer (named "a]")) .variableLength).typeName := by
  have plain {t : TypeRef} (base : t.base = named "a]") : t.Readable := by
    refine ⟨fun i nested ↦ ?_, fun n declared ↦ ?_⟩
    · cases base.symm.trans nested
    · obtain rfl := named.inj (base.symm.trans declared)
      exact ⟨by decide, by decide, fun p ↦ by cases p <;> decide⟩
  refine ⟨plain rfl, plain rfl, rfl, rfl, fun same ↦ ?_⟩
  cases (typeName_readable.2 _ _ (plain rfl) (plain rfl)).1 same

end TypeRef

end FlatDecls
