import FlatDecls.Proofs.Declaration.Decoding

/-!
# Records

A decoder of records goes through the members of an object in the order in which they stand, or
through the items of an array in the order of the fields. Either way it gives the one record in
which every field has the value that is written for it, or its initial value if it is omitted.
-/

namespace FlatDecls

open Json

variable {s : Shape} {b : Nat}

/-! ### Records -/

/-- A field of a record: how its value is read, where it stands in the record, and how it is
written. -/
structure Component (σ : Type) where
  {α : Type}
  key : String
  required : Bool
  read : Node → Decoded α
  put : α → σ → σ
  get : σ → α
  form : α → Form
  shape : Shape

namespace Component

variable {σ : Type}

/-- The component as a decoder sees it. -/
def slot (c : Component σ) : Slot σ := ⟨c.key, c.required, fun n ↦ c.put <$> c.read n⟩

/-- The component as it is written: if it is not required, it may be omitted where it has its
initial value. -/
def fieldForm (initial record : σ) (c : Component σ) : FieldForm :=
  ⟨c.key, c.form (c.get record),
    match c.required with
    | true => False
    | false => c.get record = c.get initial⟩

/-- A component may be left out if it has a default and the record has this default in it. -/
theorem omissible_fieldForm_iff {initial record : σ} {c : Component σ} :
    (fieldForm initial record c).omissible ↔ c.required = false ∧ c.get record = c.get initial := by
  rw [fieldForm]
  cases c.required <;> simp

/-- The components of a record have keys of their own, each is read back and changed alone, and
together they make up the record. -/
structure Lawful (cs : List (Component σ)) : Prop where
  distinct : (cs.map (·.key)).Nodup
  get_put : ∀ c ∈ cs, ∀ a x, c.get (c.put a x) = a
  get_put_of_ne : ∀ c ∈ cs, ∀ d ∈ cs, d.key ≠ c.key → ∀ a x, d.get (c.put a x) = d.get x
  ext : ∀ x y, (∀ c ∈ cs, c.get x = c.get y) → x = y

/-- The shape has these components, in their order. -/
structure Describe (cs : List (Component σ)) (s : Shape) : Prop where
  members : s.members = cs.map fun c ↦ (c.key, c.shape)
  item : ∀ i, s.item i = (s.members[i]?).elim .text Prod.snd

section Laws

variable {cs before behind : List (Component σ)} {c : Component σ}

/-- A key belongs to one component. -/
theorem Lawful.eq_of_key (h : Lawful cs) {d : Component σ} (hc : c ∈ cs) (hd : d ∈ cs)
    (same : c.key = d.key) : c = d :=
  List.inj_on_of_nodup_map h.distinct hc hd same

/-- Setting a component leaves the others as they were. -/
theorem Lawful.get_put_of_split (h : Lawful cs) (split : cs = before ++ c :: behind)
    (a : c.α) (x : σ) : ∀ d ∈ before ++ behind, d.get (c.put a x) = d.get x := by
  intro d hd
  subst split
  have hc : c ∈ before ++ c :: behind := by simp
  refine h.get_put_of_ne c hc d (by simpa using (List.mem_append.1 hd).imp_right .inr) ?_ a x
  have apart := h.distinct
  rw [List.map_append, List.map_cons, List.nodup_middle, ← List.map_append,
    List.nodup_cons] at apart
  exact fun same ↦ apart.1 (List.mem_map.2 ⟨d, hd, same⟩)

/-- A component is found by its key. -/
theorem Lawful.find?_eq_some_iff (h : Lawful cs) {key : String} :
    cs.find? (·.key == key) = some c ↔ c ∈ cs ∧ c.key = key :=
  find?_key_eq_some_iff h.distinct

/-- What a shape says about a key is what the first component with this key says. -/
theorem Describe.member?_eq (h : Describe cs s) (key : String) :
    s.member? key = (cs.find? (·.key == key)).map (·.shape) := by
  rw [Shape.member?, h.members, List.find?_map, Option.map_map]
  rfl

theorem Describe.member?_of_mem (h : Describe cs s) (lawful : Lawful cs) (hc : c ∈ cs) :
    s.member? c.key = some c.shape := by
  rw [h.member?_eq, lawful.find?_eq_some_iff.2 ⟨hc, rfl⟩, Option.map_some]

end Laws

/-! ### Records as arrays -/

section Items

variable {cs before behind : List (Component σ)} {c : Component σ} {initial x y : σ}
  {expected : String} {i k : Nat} {items : List Node}

/-- Each item opens no more containers than these, by the shapes of the components. -/
def ItemsOpenAtMost (b : Nat) (cs : List (Component σ)) (items : List Node) : Prop :=
  ∀ (i : Nat) (n : Node), items[i]? = some n → OpensAtMost b ((cs[i]?).elim .text Component.shape) n

theorem itemsOpenAtMost_nil (b : Nat) (cs : List (Component σ)) : ItemsOpenAtMost b cs [] :=
  fun _ _ stands ↦ nomatch stands

theorem itemsOpenAtMost_cons_iff {n : Node} : ItemsOpenAtMost b (c :: cs) (n :: items) ↔
    OpensAtMost b c.shape n ∧ ItemsOpenAtMost b cs items := by
  constructor
  · exact fun h ↦ ⟨h 0 n rfl, fun i ↦ h (i + 1)⟩
  · rintro ⟨first, rest⟩ (_ | i) m stands
    · obtain rfl := Option.some.inj stands
      exact first
    · exact rest i m stands

/-- What it says about an item is what the component with its number says. -/
theorem Describe.item_eq (h : Describe cs s) (i : Nat) :
    s.item i = (cs[i]?).elim .text Component.shape := by
  rw [h.item, h.members, List.getElem?_map]
  cases cs[i]? <;> rfl

/-- The array form of a record is nested as deeply as its items, one container further in. -/
theorem Describe.opensAtMost_array_iff (h : Describe cs s) :
    OpensAtMost (b + 1) s (.array items) ↔ ItemsOpenAtMost b cs items := by
  simp only [FlatDecls.opensAtMost_array_iff, ItemsOpenAtMost, h.item_eq]

/-- What is read off an array is a record that is written so. -/
theorem sound_readItems (lawful : Lawful cs) (reads : ∀ c ∈ cs, Reads c.read c.form c.shape b)
    (split : cs = before ++ behind) (usual : ∀ c ∈ behind, c.get x = c.get initial)
    (ok : Slot.readItems expected k i (behind.map slot) x items = .ok y) :
    (∀ c ∈ before, c.get x = c.get y) ∧ FieldForm.Items (behind.map (fieldForm initial y)) items ∧
      ItemsOpenAtMost b behind items := by
  -- the fields in `before` have their final values in `x`, those in `behind` still the initial ones
  induction behind generalizing before x i items with
  | nil =>
    cases items with
    | nil =>
      obtain rfl := Except.ok.inj ok
      exact ⟨fun _ _ ↦ rfl, .omitted nofun, itemsOpenAtMost_nil b _⟩
    | cons n items => cases ok
  | cons c behind ih =>
    have hc : c ∈ cs := split ▸ by simp
    have split' : cs = before ++ [c] ++ behind := by rw [split, List.append_assoc]; rfl
    have ⟨usualFirst, usualRest⟩ := List.forall_mem_cons.1 usual
    cases items with
    | nil =>
      rw [List.map_cons, Slot.readItems] at ok
      split at ok
      next => cases ok
      next notRequired =>
        -- the array has ended, so the field stays as it is
        have ⟨agree, written, most⟩ := ih split' usualRest ok
        have ⟨agree, agreeLast⟩ := List.forall_mem_append.1 agree
        have same : c.get y = c.get initial :=
          (agreeLast c List.mem_cons_self).symm.trans usualFirst
        have omissible := omissible_fieldForm_iff.2 ⟨Bool.eq_false_iff.2 notRequired, same⟩
        exact ⟨agree, FieldForm.items_nil_iff.2 (List.forall_mem_cons.2
          ⟨omissible, FieldForm.items_nil_iff.1 written⟩), itemsOpenAtMost_nil b _⟩
    | cons n items =>
      rw [List.map_cons, Slot.readItems] at ok
      obtain ⟨put, stored, ok⟩ := eq_ok_of_bind ok
      obtain ⟨a, first, rfl⟩ := eq_ok_of_map stored
      have unchanged := lawful.get_put_of_split split a x
      have ⟨agree, written, most⟩ := ih split' (fun d hd ↦
        (unchanged d (List.mem_append_right _ hd)).trans (usualRest d hd)) ok
      have ⟨agree, agreeLast⟩ := List.forall_mem_append.1 agree
      -- nothing behind puts this field again, so `a` is its final value
      obtain rfl : a = c.get y :=
        (lawful.get_put c hc a x).symm.trans (agreeLast c List.mem_cons_self)
      have ⟨form, mostFirst⟩ := (reads c hc).sound first
      exact ⟨fun d hd ↦ (unchanged d (List.mem_append_left _ hd)).symm.trans (agree d hd),
        .written form written, itemsOpenAtMost_cons_iff.2 ⟨mostFirst, most⟩⟩

/-- A record that is written as an array is read, if no item opens too many containers. -/
theorem complete_readItems (lawful : Lawful cs) (reads : ∀ c ∈ cs, Reads c.read c.form c.shape b)
    (split : cs = before ++ behind) (usual : ∀ c ∈ behind, c.get x = c.get initial)
    (agree : ∀ c ∈ before, c.get x = c.get y)
    (written : FieldForm.Items (behind.map (fieldForm initial y)) items) :
    Yields (ItemsOpenAtMost b behind items) y
      (Slot.readItems expected k i (behind.map slot) x items) := by
  induction behind generalizing before x i items with
  | nil =>
    cases written with
    | omitted rest =>
      obtain rfl : x = y := lawful.ext x y fun c hc ↦ agree c (by simpa [split] using hc)
      exact (Yields.pure x).congr (iff_of_true trivial (itemsOpenAtMost_nil b _))
  | cons c behind ih =>
    have hc : c ∈ cs := split ▸ by simp
    have split' : cs = before ++ [c] ++ behind := by rw [split, List.append_assoc]; rfl
    have ⟨usualFirst, usualRest⟩ := List.forall_mem_cons.1 usual
    cases items with
    | nil =>
      have ⟨first, rest⟩ := List.forall_mem_cons.1 (FieldForm.items_nil_iff.1 written)
      have ⟨notRequired, same⟩ := omissible_fieldForm_iff.1 first
      have agreeLast : c.get x = c.get y := usualFirst.trans same.symm
      have settled := ih (i := i + 1) split' usualRest
        (List.forall_mem_append.2 ⟨agree, List.forall_mem_singleton.2 agreeLast⟩) (.omitted rest)
      rw [List.map_cons, Slot.readItems, if_neg (by simp [slot, notRequired])]
      exact settled.congr (iff_of_true (itemsOpenAtMost_nil b _) (itemsOpenAtMost_nil b _))
    | cons n items =>
      have ⟨form, rest⟩ := FieldForm.items_cons_iff.1 written
      have unchanged := lawful.get_put_of_split split (c.get y) x
      have settled := ih (i := i + 1) (x := c.put (c.get y) x) split'
        (fun d hd ↦ (unchanged d (List.mem_append_right _ hd)).trans (usualRest d hd))
        (List.forall_mem_append.2
          ⟨fun d hd ↦ (unchanged d (List.mem_append_left _ hd)).trans (agree d hd),
            List.forall_mem_singleton.2 (lawful.get_put c hc _ x)⟩) rest
      rw [List.map_cons, Slot.readItems]
      exact ((((reads c hc).complete form).map c.put).bind settled).congr
        itemsOpenAtMost_cons_iff.symm

end Items

/-! ### Records as objects -/

section Members

variable {cs : List (Component σ)} {c : Component σ} {initial x y : σ} {seen : List String}
  {members : List Member} {key : String} {n : Node}

/-- What the members that are left must be, if `x` is a record under construction, the members with
the keys `seen` were read, and the record is to be `y`. -/
structure Completes (cs : List (Component σ)) (initial : σ) (seen : List String) (x y : σ)
    (members : List Member) : Prop where
  named : ∀ m ∈ members, ∃ key n, m = .pair (.name key) n ∧ ((∀ c ∈ cs, c.key ≠ key) → n.Whole)
  past : ∀ c ∈ cs, c.key ∈ seen → c.get x = c.get y ∧ valuesOf c.key members = []
  due : ∀ c ∈ cs, c.key ∉ seen → (c.fieldForm initial y).Stands (valuesOf c.key members)

/-- Components that were not seen keep their initial values when another is put. -/
theorem usual_put (lawful : Lawful cs) (usual : ∀ c ∈ cs, c.key ∉ seen → c.get x = c.get initial)
    (hc : c ∈ cs) (a : c.α) :
    ∀ d ∈ cs, d.key ∉ c.key :: seen → d.get (c.put a x) = d.get initial := by
  intro d hd due
  have ⟨other, due⟩ := List.ne_and_not_mem_of_not_mem_cons due
  exact (lawful.get_put_of_ne c hc d hd other a x).trans (usual d hd due)

/-- Nothing is missed once the components that are left have defaults. -/
theorem firstMissing?_eq_none_iff : Slot.firstMissing? (cs.map slot) seen = none ↔
    ∀ c ∈ cs, c.key ∉ seen → c.required = false := by
  rw [Slot.firstMissing?, Option.map_eq_none_iff, List.find?_eq_none, List.forall_mem_map]
  refine forall₂_congr fun c _ ↦ ?_
  rw [slot]
  cases c.required <;> simp

/-- An object may end if nothing is missing; then the components that are left have their
defaults. -/
theorem completes_nil_iff (lawful : Lawful cs)
    (usual : ∀ c ∈ cs, c.key ∉ seen → c.get x = c.get initial) :
    Completes cs initial seen x y [] ↔
      x = y ∧ Slot.firstMissing? (cs.map slot) seen = none := by
  rw [firstMissing?_eq_none_iff]
  constructor
  · intro h
    have omissible (c : Component σ) (hc : c ∈ cs) (unseen : c.key ∉ seen) :=
      omissible_fieldForm_iff.1 (stands_nil_iff.1 (h.due c hc unseen))
    refine ⟨lawful.ext x y fun c hc ↦ ?_, fun c hc unseen ↦ (omissible c hc unseen).1⟩
    by_cases past : c.key ∈ seen
    · exact (h.past c hc past).1
    · exact (usual c hc past).trans (omissible c hc past).2.symm
  · rintro ⟨rfl, notRequired⟩
    exact ⟨nofun, fun c hc past ↦ ⟨rfl, rfl⟩, fun c hc unseen ↦ stands_nil_iff.2
      (omissible_fieldForm_iff.2 ⟨notRequired c hc unseen, usual c hc unseen⟩)⟩

/-- A member with an unknown key changes nothing, but its value must be whole. -/
theorem completes_cons_iff_of_unknown (unknown : ∀ c ∈ cs, c.key ≠ key) :
    Completes cs initial seen x y (.pair (.name key) n :: members) ↔
      n.Whole ∧ Completes cs initial seen x y members := by
  have values (c : Component σ) (hc : c ∈ cs) :
      valuesOf c.key (.pair (.name key) n :: members) = valuesOf c.key members :=
    valuesOf_cons_of_ne (unknown c hc).symm
  constructor
  · intro h
    have ⟨⟨_, _, same, whole⟩, named⟩ := List.forall_mem_cons.1 h.named
    obtain ⟨⟨rfl⟩, rfl⟩ := Member.pair.inj same
    exact ⟨whole unknown, named, fun c hc past ↦ values c hc ▸ h.past c hc past,
      fun c hc unseen ↦ values c hc ▸ h.due c hc unseen⟩
  · rintro ⟨whole, h⟩
    exact ⟨List.forall_mem_cons.2 ⟨⟨key, n, rfl, fun _ ↦ whole⟩, h.named⟩,
      fun c hc past ↦ (values c hc).symm ▸ h.past c hc past,
      fun c hc unseen ↦ (values c hc).symm ▸ h.due c hc unseen⟩

/-- A member with a known key sets its component, and the key must not come again. -/
theorem completes_cons_iff_of_mem (lawful : Lawful cs) (hc : c ∈ cs) (unseen : c.key ∉ seen) :
    Completes cs initial seen x y (.pair (.name c.key) n :: members) ↔
      c.form (c.get y) n ∧
        Completes cs initial (c.key :: seen) (c.put (c.get y) x) y members := by
  have values {d : Component σ} (other : d.key ≠ c.key) :
      valuesOf d.key (.pair (.name c.key) n :: members) = valuesOf d.key members :=
    valuesOf_cons_of_ne other.symm
  constructor
  · intro h
    have ⟨form, last⟩ := stands_cons_iff.1 (valuesOf_cons_self .. ▸ h.due c hc unseen)
    refine ⟨form, (List.forall_mem_cons.1 h.named).2, fun d hd past ↦ ?_, fun d hd due ↦ ?_⟩
    · rcases List.mem_cons.1 past with same | past
      · obtain rfl := lawful.eq_of_key hd hc same
        exact ⟨lawful.get_put d hd _ x, last⟩
      · have other : d.key ≠ c.key := fun same ↦ unseen (same ▸ past)
        rw [lawful.get_put_of_ne c hc d hd other, ← values other]
        exact h.past d hd past
    · have ⟨other, due⟩ := List.ne_and_not_mem_of_not_mem_cons due
      rw [← values other]
      exact h.due d hd due
  · rintro ⟨form, h⟩
    refine ⟨List.forall_mem_cons.2 ⟨⟨c.key, n, rfl, fun unknown ↦ absurd rfl (unknown c hc)⟩,
      h.named⟩, fun d hd past ↦ ?_, fun d hd due ↦ ?_⟩
    · have other : d.key ≠ c.key := fun same ↦ unseen (same ▸ past)
      have settled := h.past d hd (List.mem_cons_of_mem _ past)
      rwa [lawful.get_put_of_ne c hc d hd other, ← values other] at settled
    · by_cases same : d.key = c.key
      · obtain rfl := lawful.eq_of_key hd hc same
        rw [valuesOf_cons_self]
        exact stands_cons_iff.2 ⟨form, (h.past d hd List.mem_cons_self).2⟩
      · rw [values same]
        exact h.due d hd (List.not_mem_cons_of_ne_of_not_mem same due)

/-- The values of known members open no more containers than these. -/
def MembersOpenAtMost (b : Nat) (s : Shape) (members : List Member) : Prop :=
  ∀ key n t, .pair (.name key) n ∈ members → s.member? key = some t → OpensAtMost b t n

theorem membersOpenAtMost_nil (b : Nat) (s : Shape) : MembersOpenAtMost b s [] :=
  fun _ _ _ stands ↦ nomatch stands

theorem membersOpenAtMost_cons_iff {t : Shape} (known : s.member? key = some t) :
    MembersOpenAtMost b s (.pair (.name key) n :: members) ↔
      OpensAtMost b t n ∧ MembersOpenAtMost b s members := by
  constructor
  · exact fun h ↦ ⟨h key n t List.mem_cons_self known,
      fun key n t stands ↦ h key n t (List.mem_cons_of_mem _ stands)⟩
  · rintro ⟨first, rest⟩ key n t stands known'
    rcases List.mem_cons.1 stands with same | stands
    · obtain ⟨⟨rfl⟩, rfl⟩ := Member.pair.inj same
      obtain rfl := Option.some.inj (known.symm.trans known')
      exact first
    · exact rest key n t stands known'

/-- The containers of an ignored value do not count. -/
theorem membersOpenAtMost_cons_iff_of_unknown (unknown : s.member? key = none) :
    MembersOpenAtMost b s (.pair (.name key) n :: members) ↔ MembersOpenAtMost b s members := by
  constructor
  · exact fun h key n t stands ↦ h key n t (List.mem_cons_of_mem _ stands)
  · rintro rest key n t stands known
    rcases List.mem_cons.1 stands with same | stands
    · obtain ⟨⟨rfl⟩, rfl⟩ := Member.pair.inj same
      cases unknown.symm.trans known
    · exact rest key n t stands known

/-- The member with this key is looked up among the components. -/
theorem find?_slot (cs : List (Component σ)) (key : String) :
    (cs.map slot).find? (·.key == key) = (cs.find? (·.key == key)).map slot := by
  rw [List.find?_map]
  rfl

/-- A key without component is the key of no known member. -/
theorem unknown_of_find? (describe : Describe cs s) (missing : cs.find? (·.key == key) = none) :
    (∀ c ∈ cs, c.key ≠ key) ∧ s.member? key = none :=
  ⟨by simpa using missing, by rw [describe.member?_eq, missing, Option.map_none]⟩

/-- What is read off the members of an object is the record that they complete. -/
theorem sound_readMembers (lawful : Lawful cs) (describe : Describe cs s)
    (reads : ∀ c ∈ cs, Reads c.read c.form c.shape b)
    (usual : ∀ c ∈ cs, c.key ∉ seen → c.get x = c.get initial)
    (ok : Slot.readMembers (cs.map slot) seen x members = .ok y) :
    Completes cs initial seen x y members ∧ MembersOpenAtMost b s members := by
  -- the fields that were not seen still have their initial values in `x`
  induction members generalizing seen x with
  | nil =>
    rw [Slot.readMembers] at ok
    split at ok
    next => cases ok
    next complete =>
      obtain rfl := Except.ok.inj ok
      exact ⟨(completes_nil_iff lawful usual).2 ⟨rfl, complete⟩, membersOpenAtMost_nil b s⟩
  | cons m members ih =>
    rcases m with ⟨key | f, n⟩ | _
    · rw [Slot.readMembers, find?_slot] at ok
      cases found : cs.find? (·.key == key) with
      | none =>
        have ⟨unknown, ignored⟩ := unknown_of_find? describe found
        simp only [found, Option.map_none] at ok
        split at ok
        next passed =>
          have ⟨completes, most⟩ := ih usual ok
          exact ⟨(completes_cons_iff_of_unknown unknown).2
            ⟨Node.passedFault?_eq_none_iff.1 passed, completes⟩,
            (membersOpenAtMost_cons_iff_of_unknown ignored).2 most⟩
        next => cases ok
      | some c =>
        obtain ⟨hc, rfl⟩ := lawful.find?_eq_some_iff.1 found
        simp only [found, Option.map_some] at ok
        split at ok
        next => cases ok
        next unseen =>
          have unseen : c.key ∉ seen := by simpa using unseen
          obtain ⟨put, stored, ok⟩ := eq_ok_of_bind ok
          obtain ⟨a, first, rfl⟩ := eq_ok_of_map stored
          have ⟨completes, most⟩ := ih (usual_put lawful usual hc a) ok
          -- the key is seen now and comes no more, so `a` is the final value
          obtain rfl : a = c.get y := (lawful.get_put c hc a x).symm.trans
            (completes.past c hc List.mem_cons_self).1
          have ⟨form, mostFirst⟩ := (reads c hc).sound first
          exact ⟨(completes_cons_iff_of_mem lawful hc unseen).2 ⟨form, completes⟩,
            (membersOpenAtMost_cons_iff (describe.member?_of_mem lawful hc)).2 ⟨mostFirst, most⟩⟩
    · cases ok
    · cases ok

/-- Members that complete a record are read, if no known one opens too many containers. -/
theorem complete_readMembers (lawful : Lawful cs) (describe : Describe cs s)
    (reads : ∀ c ∈ cs, Reads c.read c.form c.shape b)
    (usual : ∀ c ∈ cs, c.key ∉ seen → c.get x = c.get initial)
    (completes : Completes cs initial seen x y members) :
    Yields (MembersOpenAtMost b s members) y (Slot.readMembers (cs.map slot) seen x members) := by
  induction members generalizing seen x with
  | nil =>
    obtain ⟨rfl, complete⟩ := (completes_nil_iff lawful usual).1 completes
    rw [Slot.readMembers, complete]
    exact (Yields.pure x).congr (iff_of_true trivial (membersOpenAtMost_nil b s))
  | cons m members ih =>
    obtain ⟨key, n, rfl, -⟩ := completes.named m List.mem_cons_self
    rw [Slot.readMembers, find?_slot]
    cases found : cs.find? (·.key == key) with
    | none =>
      have ⟨unknown, ignored⟩ := unknown_of_find? describe found
      have ⟨whole, completes⟩ := (completes_cons_iff_of_unknown unknown).1 completes
      simp only [Option.map_none, Node.passedFault?_eq_none_iff.2 whole]
      exact (ih usual completes).congr (membersOpenAtMost_cons_iff_of_unknown ignored).symm
    | some c =>
      obtain ⟨hc, rfl⟩ := lawful.find?_eq_some_iff.1 found
      -- of a key that was seen no value is left, but here is one
      have unseen : c.key ∉ seen := fun past ↦ by
        simpa using (completes.past c hc past).2
      have ⟨form, completes⟩ := (completes_cons_iff_of_mem lawful hc unseen).1 completes
      have rest := ih (usual_put lawful usual hc (c.get y)) completes
      simp only [Option.map_some, List.contains_iff_mem, unseen, if_false]
      exact ((((reads c hc).complete form).map c.put).bind rest).congr
        (membersOpenAtMost_cons_iff (describe.member?_of_mem lawful hc)).symm

/-- An object is written for a record exactly if its members complete the initial one to it. -/
theorem completes_iff_record (lawful : Lawful cs) : Completes cs initial [] initial y members ↔
    Form.record (cs.map (fieldForm initial y)) (.object members) := by
  have distinct : ((cs.map (fieldForm initial y)).map (·.key)).Nodup := by
    rw [List.map_map]
    exact lawful.distinct
  rw [record_object_iff distinct]
  constructor
  · exact fun h ↦ ⟨by simpa [fieldForm] using h.named,
      List.forall_mem_map.2 fun c hc ↦ h.due c hc List.not_mem_nil⟩
  · exact fun h ↦ ⟨by simpa [fieldForm] using h.named, nofun,
      fun c hc _ ↦ List.forall_mem_map.1 h.stands c hc⟩

end Members

/-! ### Reading records -/

section Reading

variable {cs : List (Component σ)} {initial y : σ} {members : List Member} {items : List Node}

/-- What is read of a record that is written as an array is in order. -/
theorem tidy_items (describe : Describe cs s) (reads : ∀ c ∈ cs, Reads c.read c.form c.shape b)
    (written : FieldForm.Items (cs.map (fieldForm initial y)) items)
    (most : ItemsOpenAtMost b cs items) : Tidy s (.array items) := by
  refine tidy_array fun i n stands ↦ ?_
  obtain ⟨f, found, form⟩ := FieldForm.form_of_items written stands
  rw [List.getElem?_map] at found
  obtain ⟨c, there, rfl⟩ := Option.map_eq_some_iff.1 found
  have most := most i n stands
  rw [there] at most
  rw [describe.item_eq, there]
  exact (reads c (List.mem_of_getElem? there)).tidy form most

/-- What is read of a record that is written as an object is in order. -/
theorem tidy_members (lawful : Lawful cs) (describe : Describe cs s)
    (reads : ∀ c ∈ cs, Reads c.read c.form c.shape b)
    (completes : Completes cs initial [] initial y members)
    (most : MembersOpenAtMost b s members) : Tidy s (.object members) := by
  have known {c : Component σ} (hc : c ∈ cs) : s.member? c.key = some c.shape :=
    describe.member?_of_mem lawful hc
  have stands {c : Component σ} (hc : c ∈ cs) := completes.due c hc List.not_mem_nil
  have tidy {c : Component σ} (hc : c ∈ cs) {n : Node} (hn : .pair (.name c.key) n ∈ members) :
      Tidy c.shape n :=
    (reads c hc).tidy ((stands hc).form_of_mem (mem_valuesOf_iff.2 hn)) (most _ _ _ hn (known hc))
  have component {key : String} {t : Shape} (known : s.member? key = some t) :
      ∃ c ∈ cs, c.key = key ∧ c.shape = t := by
    obtain ⟨c, found, rfl⟩ := Option.map_eq_some_iff.1 (describe.member?_eq key ▸ known)
    obtain ⟨hc, rfl⟩ := lawful.find?_eq_some_iff.1 found
    exact ⟨c, hc, rfl, rfl⟩
  refine tidy_object (fun m hm ↦ ?_) (fun key there ↦ ?_) (fun key n t hn known ↦ ?_)
  · obtain ⟨key, n, rfl, whole⟩ := completes.named m hm
    refine ⟨.name key, n, rfl, ?_⟩
    by_cases known : ∃ c ∈ cs, c.key = key
    · obtain ⟨c, hc, rfl⟩ := known
      exact (tidy hc hm).whole
    · exact whole fun c hc same ↦ known ⟨c, hc, same⟩
  · obtain ⟨t, known⟩ := Option.isSome_iff_exists.1 there
    obtain ⟨c, hc, rfl, -⟩ := component known
    exact (stands hc).length_le
  · obtain ⟨c, hc, rfl, rfl⟩ := component known
    exact tidy hc hn

end Reading

end Component

open Component

/-- A record is read as its components are. -/
theorem reads_record {σ : Type} {cs : List (Component σ)} {initial : σ} {canOpen : Bool}
    {expected : String} (opens : canOpen = decide (0 < b)) (lawful : Lawful cs)
    (describe : Describe cs s)
    (reads : ∀ d, b = d + 1 → ∀ c ∈ cs, Reads c.read c.form c.shape d) :
    Reads (record canOpen expected (cs.map slot) initial)
      (fun y ↦ .record (cs.map (fieldForm initial y))) s b := by
  cases b with
  | zero =>
    obtain rfl : canOpen = false := opens
    refine reads_closed (fun n y ↦ ?_) fun n y written ↦ ?_
    · rw [record.eq_def]
      split <;> exact nofun
    · cases n with
      | object | array => exact ⟨trivial, rfl⟩
      | atom | missing => exact written.elim
  | succ d =>
    obtain rfl : canOpen = true := opens
    have reads := reads d rfl
    refine ⟨?_, ?_, ?_⟩
    · intro n y ok
      rw [record.eq_def] at ok
      split at ok
      next members =>
        have ⟨completes, most⟩ := sound_readMembers lawful describe reads (fun _ _ _ ↦ rfl) ok
        exact ⟨(completes_iff_record lawful).1 completes, opensAtMost_object_iff.2 most⟩
      next items =>
        have ⟨_, written, most⟩ :=
          sound_readItems lawful reads (List.nil_append cs).symm (fun _ _ ↦ rfl) ok
        exact ⟨written, describe.opensAtMost_array_iff.2 most⟩
      next => cases ok
    · intro n y written
      cases n with
      | object members =>
        have completes := (completes_iff_record lawful).2 written
        exact (complete_readMembers lawful describe reads (fun _ _ _ ↦ rfl) completes).congr
          opensAtMost_object_iff.symm
      | array items =>
        exact (complete_readItems lawful reads (List.nil_append cs).symm (fun _ _ ↦ rfl) nofun
          written).congr describe.opensAtMost_array_iff.symm
      | atom | missing => exact written.elim
    · intro n y written most
      cases n with
      | object members =>
        exact tidy_members lawful describe reads ((completes_iff_record lawful).2 written)
          (opensAtMost_object_iff.1 most)
      | array items =>
        exact tidy_items describe reads written (describe.opensAtMost_array_iff.1 most)
      | atom | missing => exact written.elim

end FlatDecls
