import Mathlib.Data.List.Nodup
import FlatDecls.Json.Decoder
import FlatDecls.Proofs.Declaration.Form

/-!
# What decoders accept

A decoder reads values in some form if it accepts what is written so and opens no more containers
than it may, gives the value that is written there, and refuses what is written so but opens more
(`Reads`). Every way to combine decoders has its lemma, which makes no use of how the types decoded
are defined: a record is told by its components (`Component`), a variant by its branches (`Branch`).
-/

namespace FlatDecls

open Json

variable {α β : Type} {s : Shape} {b : Nat}

/-! ### Outcomes -/

/-- A value that is made of what is read. -/
theorem eq_ok_of_map {f : α → β} {r : Decoded α} {y : β} (h : f <$> r = .ok y) :
    ∃ x, r = .ok x ∧ y = f x := by
  cases r with
  | error e => cases h
  | ok x => exact ⟨x, rfl, (Except.ok.inj h).symm⟩

/-- What is found by a key of its own. -/
theorem find?_key_eq_some_iff {γ : Type*} {key : γ → String} {xs : List γ}
    (distinct : (xs.map key).Nodup) {k : String} {x : γ} :
    xs.find? (key · == k) = some x ↔ x ∈ xs ∧ key x = k := by
  constructor
  · intro found
    exact ⟨List.mem_of_find?_eq_some found, by simpa using List.find?_some found⟩
  · rintro ⟨hx, rfl⟩
    cases found : xs.find? (key · == key x) with
    | none => simpa using List.find?_eq_none.1 found x hx
    | some y =>
      have same : key y = key x := by simpa using List.find?_some found
      rw [List.inj_on_of_nodup_map distinct (List.mem_of_find?_eq_some found) hx same]

/-- A reading gives the value if the limit on nesting is observed, and refuses otherwise. -/
structure Yields (observed : Prop) (a : α) (r : Decoded α) : Prop where
  ok : observed → r = .ok a
  refused : ¬ observed → r = malformed .tooDeep

namespace Yields

variable {P Q : Prop} {a : α} {r : Decoded α}

theorem pure (a : α) : Yields True a (.ok a) := ⟨fun _ ↦ rfl, fun h ↦ (h trivial).elim⟩

theorem congr (h : Yields P a r) (same : P ↔ Q) : Yields Q a r :=
  ⟨fun q ↦ h.ok (same.2 q), fun q ↦ h.refused (q ∘ same.1)⟩

/-- Two readings observe the limit if each does. -/
theorem bind {f : α → Decoded β} {c : β} (first : Yields P a r) (second : Yields Q c (f a)) :
    Yields (P ∧ Q) c (r >>= f) where
  ok := fun ⟨p, q⟩ ↦ by
    rw [first.ok p]
    exact second.ok q
  refused h := by
    by_cases p : P
    · rw [first.ok p]
      exact second.refused fun q ↦ h ⟨p, q⟩
    · rw [first.refused p]
      rfl

theorem map (h : Yields P a r) (f : α → β) : Yields P (f a) (f <$> r) where
  ok p := by
    rw [h.ok p]
    rfl
  refused p := by
    rw [h.refused p]
    rfl

end Yields

/-- The decoder reads values in this form and shape, and may open so many containers. -/
structure Reads (read : Node → Decoded α) (form : α → Form) (s : Shape) (b : Nat) : Prop where
  sound {n : Node} {a : α} : read n = .ok a → form a n ∧ OpensAtMost b s n
  complete {n : Node} {a : α} : form a n → Yields (OpensAtMost b s n) a (read n)
  tidy {n : Node} {a : α} : form a n → OpensAtMost b s n → Tidy s n

namespace Reads

variable {read : Node → Decoded α} {form : α → Form}

/-- The same form may be given in other words. -/
theorem congr {form' : α → Form} (h : Reads read form s b) (same : ∀ a n, form a n ↔ form' a n) :
    Reads read form' s b where
  sound ok := ⟨(same _ _).1 (h.sound ok).1, (h.sound ok).2⟩
  complete written := h.complete ((same _ _).2 written)
  tidy written most := h.tidy ((same _ _).2 written) most

/-- A value that is made of what is read. -/
theorem map (f : α → β) (h : Reads read form s b) :
    Reads (fun n ↦ f <$> read n) (fun y n ↦ ∃ x, y = f x ∧ form x n) s b where
  sound := by
    intro n y ok
    obtain ⟨x, read, rfl⟩ := eq_ok_of_map ok
    exact ⟨⟨x, rfl, (h.sound read).1⟩, (h.sound read).2⟩
  complete := fun ⟨x, same, written⟩ ↦ same ▸ (h.complete written).map f
  tidy := fun ⟨_, _, written⟩ most ↦ h.tidy written most

end Reads

/-- A decoder of containers that may open none refuses everything. -/
theorem reads_closed {read : Node → Decoded α} {form : α → Form} (never : ∀ n a, read n ≠ .ok a)
    (refuses : ∀ n a, form a n → n.IsContainer ∧ read n = malformed .tooDeep) :
    Reads read form s 0 where
  sound ok := (never _ _ ok).elim
  complete written :=
    ⟨fun most ↦ absurd most (not_opensAtMost_zero (refuses _ _ written).1),
      fun _ ↦ (refuses _ _ written).2⟩
  tidy written most := absurd most (not_opensAtMost_zero (refuses _ _ written).1)

/-! ### Values without parts -/

theorem reads_text (b : Nat) : Reads text Form.text .text b where
  sound := by
    intro n s ok
    rw [text.eq_def] at ok
    split at ok
    · obtain rfl := Except.ok.inj ok
      exact ⟨rfl, opensAtMost_atom⟩
    · cases ok
  complete := by
    rintro n s rfl
    exact (Yields.pure s).congr (iff_of_true trivial opensAtMost_atom)
  tidy := by
    rintro n s rfl -
    exact tidy_atom trivial

/-- An integer is read if its type fits the range, which is one of 64-bit numbers. -/
theorem reads_integer {expected : String} {fit? : Int → Option α} {value : α → Int}
    (fits : ∀ i a, fit? i = some a ↔ value a = i) (holds : ∀ a, s.Holds (value a))
    (low : ∀ a, -(Decimal.pow2 63 : Int) ≤ value a) (high : ∀ a, value a ≤ Numeral.wordMax) :
    Reads (integer expected fit?) (fun a ↦ Form.integer (value a)) s b where
  sound := by
    intro n a ok
    rw [integer.eq_def] at ok
    split at ok
    next m =>
      split at ok
      next i stands =>
        split at ok
        next a' fit =>
          obtain rfl := Except.ok.inj ok
          obtain rfl := (fits i a').1 fit
          exact ⟨⟨m, rfl, (Numeral.quantity_eq_integer_iff.1 stands).1⟩, opensAtMost_atom⟩
        next => cases ok
      next => cases ok
    next => cases ok
  complete := by
    rintro n a ⟨m, rfl, denotes⟩
    have stands : m.quantity = .integer (value a) :=
      Numeral.quantity_eq_integer_iff.2 ⟨denotes, low a, high a⟩
    refine ⟨fun _ ↦ ?_, fun h ↦ absurd opensAtMost_atom h⟩
    simp only [integer, stands, (fits _ a).2 rfl]
  tidy := by
    rintro n a ⟨m, rfl, denotes⟩ -
    exact tidy_atom ⟨value a, denotes, holds a⟩

/-- A value that may be absent, if what is there is never written as null. -/
theorem reads_optional {read : Node → Decoded α} {form : α → Form} (h : Reads read form s b)
    (notNull : ∀ a, ¬ form a (.atom .null)) :
    Reads (Json.optional read) (Form.optional form) s b where
  sound := by
    intro n x ok
    rw [Json.optional.eq_def] at ok
    split at ok
    · obtain rfl := Except.ok.inj ok
      exact ⟨rfl, opensAtMost_atom⟩
    · obtain ⟨a, read, rfl⟩ := eq_ok_of_map ok
      exact h.sound read
  complete := by
    intro n x written
    cases x with
    | none =>
      obtain rfl := written
      exact (Yields.pure none).congr (iff_of_true trivial opensAtMost_atom)
    | some a =>
      -- null would be read as an absent value
      have there : n ≠ .atom .null := fun null ↦ notNull a (null ▸ written)
      rw [Json.optional.eq_2 read n there]
      exact (h.complete written).map some
  tidy := by
    intro n x written most
    cases x with
    | none =>
      obtain rfl := written
      exact tidy_atom trivial
    | some a => exact h.tidy written most

/-! ### Sequences -/

section Sequences

variable {item : Node → Decoded α} {form : α → Form}

theorem sound_mapM (h : Reads item form s b) {items : List Node} {xs : List α}
    (ok : items.mapM item = .ok xs) :
    List.Forall₂ form xs items ∧ ∀ n ∈ items, OpensAtMost b s n := by
  induction items generalizing xs with
  | nil =>
    obtain rfl := Except.ok.inj ok
    exact ⟨.nil, nofun⟩
  | cons n items ih =>
    rw [List.mapM_cons] at ok
    obtain ⟨x, first, ok⟩ := eq_ok_of_bind ok
    obtain ⟨xs, others, same⟩ := eq_ok_of_bind ok
    obtain rfl := Except.ok.inj same
    have ⟨forms, most⟩ := ih others
    have ⟨form, mostFirst⟩ := h.sound first
    exact ⟨.cons form forms, List.forall_mem_cons.2 ⟨mostFirst, most⟩⟩

theorem complete_mapM (h : Reads item form s b) {items : List Node} {xs : List α}
    (written : List.Forall₂ form xs items) :
    Yields (∀ n ∈ items, OpensAtMost b s n) xs (items.mapM item) := by
  induction written with
  | nil => exact (Yields.pure []).congr (iff_of_true trivial nofun)
  | @cons x n xs items form forms ih =>
    rw [List.mapM_cons]
    have others : Yields _ (x :: xs) (do let ys ← items.mapM item; pure (x :: ys)) :=
      ih.bind (.pure (x :: xs))
    exact ((h.complete form).bind others).congr (by simp)

theorem exists_form_of_mem {forms : List Form} {items : List Node} {n : Node}
    (h : List.Forall₂ (fun form n ↦ form n) forms items) (hn : n ∈ items) :
    ∃ form ∈ forms, form n := by
  induction h with
  | nil => cases hn
  | @cons form m forms items written rest ih =>
    rcases List.mem_cons.1 hn with rfl | hn
    · exact ⟨form, List.mem_cons_self, written⟩
    · obtain ⟨form, hform, written⟩ := ih hn
      exact ⟨form, List.mem_cons_of_mem _ hform, written⟩

/-- Items may open one container less than their list. -/
theorem opensAtMost_list_iff {items : List Node} :
    OpensAtMost (b + 1) (.list s) (.array items) ↔ ∀ n ∈ items, OpensAtMost b s n := by
  rw [opensAtMost_array_iff]
  constructor
  · intro most n hn
    obtain ⟨i, stands⟩ := List.mem_iff_getElem?.1 hn
    exact most i n stands
  · exact fun most i n stands ↦ most n (List.mem_of_getElem? stands)

/-- A list is read as its items are. -/
theorem reads_sequence {canOpen : Bool} (opens : canOpen = decide (0 < b))
    (h : ∀ c, b = c + 1 → Reads item form s c) :
    Reads (Json.sequence canOpen item) (fun xs ↦ .list (xs.map form)) (.list s) b := by
  cases b with
  | zero =>
    obtain rfl : canOpen = false := opens
    refine reads_closed (fun n xs ↦ ?_) ?_
    · rw [Json.sequence.eq_def]
      split <;> exact nofun
    · rintro n xs ⟨items, rfl, -⟩
      exact ⟨trivial, rfl⟩
  | succ c =>
    obtain rfl : canOpen = true := opens
    have h := h c rfl
    refine ⟨?_, ?_, ?_⟩
    · intro n xs ok
      rw [Json.sequence.eq_def] at ok
      split at ok
      next items =>
        have ⟨forms, most⟩ := sound_mapM h ok
        exact ⟨⟨items, rfl, List.forall₂_map_left_iff.2 forms⟩, opensAtMost_list_iff.2 most⟩
      next => cases ok
    · rintro n xs ⟨items, rfl, forms⟩
      exact (complete_mapM h (List.forall₂_map_left_iff (f := form).1 forms)).congr
        opensAtMost_list_iff.symm
    · rintro n xs ⟨items, rfl, forms⟩ most
      refine tidy_array fun i n stands ↦ ?_
      have hn := List.mem_of_getElem? stands
      obtain ⟨_, hform, written⟩ := exists_form_of_mem forms hn
      obtain ⟨x, -, rfl⟩ := List.mem_map.1 hform
      exact h.tidy written (opensAtMost_list_iff.1 most n hn)

end Sequences

end FlatDecls
