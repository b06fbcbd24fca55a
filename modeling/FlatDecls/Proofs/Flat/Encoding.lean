import FlatDecls.Emission
import FlatDecls.Proofs.Declaration.Form
import FlatDecls.Proofs.Json.Encoding
import FlatDecls.Proofs.Json.Reading

/-!
# The JSON of a register

What stands for each part of a register in JSON, as a form of values: for a unit it is an object
with its kind, name, fields or members, and documentation if there is one, and with nothing else.
The emitted text is a text of such a value (`Register.encodedBy_toJson`).

No value stands for two registers (`Register.unambiguous_encodedBy`), and no text has two values, so
a register can be told from its text (`Register.emit_json_lossless`).
-/

namespace FlatDecls

open Json

/-! ### Objects and what they stand for -/

namespace Form

/-- An object with these members in their order and no others. -/
def exactly (members : List (String × Form)) : Form :=
  fun n ↦ ∃ ms, n = .object ms ∧
    List.Forall₂ (fun m f ↦ ∃ v, m = .pair (.name f.1) v ∧ f.2 v) ms members

/-- A documentation as a member, if there is one. -/
def documented (text : Option String) : List (String × Form) :=
  (text.map fun t ↦ ("documentation", Form.text t)).toList

/-- No value is written for two different things. -/
def Unambiguous (form : α → Form) : Prop := ∀ a b n, form a n → form b n → a = b

/-- Members with the same key, of which one value can be written for both. -/
def Shared (f g : String × Form) : Prop := f.1 = g.1 ∧ ∃ v, f.2 v ∧ g.2 v

/-- An object that is written in two ways has the same keys in both. -/
theorem shared_of_exactly {fs gs : List (String × Form)} {n : Node} (hf : exactly fs n)
    (hg : exactly gs n) : List.Forall₂ Shared fs gs := by
  obtain ⟨ms, rfl, hf⟩ := hf
  obtain ⟨ms', same, hg⟩ := hg
  obtain rfl := Node.object.inj same
  induction hf generalizing gs with
  | nil =>
    cases hg
    exact .nil
  | cons first rest ih =>
    cases hg with
    | cons first' rest' =>
      obtain ⟨v, rfl, form⟩ := first
      obtain ⟨v', pair, form'⟩ := first'
      obtain ⟨key, rfl⟩ := Member.pair.inj pair
      exact .cons ⟨Key.name.inj key, v, form, form'⟩ (ih rfl rest')

/-- A value that two members share stands for one thing. -/
theorem Unambiguous.eq_of_shared {form : α → Form} (h : Unambiguous form) {a b : α}
    {k k' : String} (shared : Shared (k, form a) (k', form b)) : a = b := by
  obtain ⟨-, v, ha, hb⟩ := shared
  exact h a b v ha hb

/-- A text in a tree is one text only. -/
theorem unambiguous_text : Unambiguous Form.text :=
  fun _ _ _ hs ht ↦ Atom.string.inj (Node.atom.inj (hs.symm.trans ht))

/-- Two documentations that share their members are the same, and so are two absent ones. -/
theorem eq_of_shared_documented {s t : Option String}
    (h : List.Forall₂ Shared (documented s) (documented t)) : s = t := by
  cases s with
  | none =>
    cases t with
    | none => rfl
    | some t => cases h
  | some s =>
    cases t with
    | none => cases h
    | some t =>
      cases h with
      | cons first rest => rw [unambiguous_text.eq_of_shared first]

/-- The digits of an integer are those of no other. -/
theorem unambiguous_integer : Unambiguous Form.integer := by
  rintro i j n ⟨m, rfl, denotes⟩ ⟨m', same, denotes'⟩
  obtain rfl := Atom.number.inj (Node.atom.inj same)
  have digits : i.natAbs = j.natAbs := denotes.digits.symm.trans denotes'.digits
  have sign : i < 0 ↔ j < 0 := decide_eq_decide.1 (denotes.sign.symm.trans denotes'.sign)
  omega

/-- Arrays with the same items encode the same list, if each item encodes one thing only. -/
theorem Unambiguous.list {form : α → Form} (h : Unambiguous form) :
    Unambiguous fun xs : List α ↦ Form.list (xs.map form) := by
  rintro xs ys n ⟨items, rfl, hx⟩ ⟨items', same, hy⟩
  obtain rfl := Node.array.inj same
  rw [List.forall₂_map_left_iff] at hx hy
  induction hx generalizing ys with
  | nil =>
    cases hy
    rfl
  | cons first rest ih =>
    cases hy with
    | cons first' rest' => rw [h _ _ _ first first', ih _ rfl rest']

/-- An object is written in exactly this way if its members are. -/
theorem exactly_node {ms : List (String × Value)} {fs : List (String × Form)}
    (h : List.Forall₂ (fun m f ↦ m.1 = f.1 ∧ f.2 m.2.node) ms fs) :
    exactly fs (Value.object ms).node := by
  rw [Value.node_object]
  refine ⟨_, rfl, List.forall₂_map_left_iff.2 (h.imp ?_)⟩
  rintro ⟨key, v⟩ ⟨_, form⟩ ⟨rfl, value⟩
  exact ⟨_, rfl, value⟩

theorem text_node (s : String) : Form.text s (Value.string s).node := by
  rw [Value.node]
  rfl

theorem integer_node (i : Int) : Form.integer i (Value.integer i).node := by
  rw [Value.node]
  exact ⟨_, rfl, Numeral.denotes_ofInt i⟩

/-- An absent documentation has no member, and one that is there has its own. -/
theorem documented_optionalText (text : Option String) :
    List.Forall₂ (fun m f ↦ m.1 = f.1 ∧ f.2 (Value.node m.2))
      (Value.optionalText "documentation" text) (documented text) := by
  cases text with
  | none => exact .nil
  | some t => exact .cons ⟨rfl, text_node t⟩ .nil

/-- The tree of an array is of a list's form if the trees of its items are of the elements' form. -/
theorem list_node {form : α → Form} {value : α → Value} {xs : List α}
    (h : ∀ x ∈ xs, form x (value x).node) :
    Form.list (xs.map form) (Value.array (xs.map value)).node := by
  rw [Value.node_array, List.map_map]
  refine ⟨_, rfl, ?_⟩
  rw [List.forall₂_map_left_iff, List.forall₂_map_right_iff, List.forall₂_same]
  exact h

end Form

open Form

/-! ### The parts of a register -/

/-- What stands for a field. -/
def FlatField.EncodedBy (f : FlatField) : Form :=
  .exactly ([("name", .text f.name), ("type_name", .text f.typeName)] ++ documented f.documentation)

/-- What stands for a constant. -/
def FlatMember.EncodedBy (m : FlatMember) : Form :=
  .exactly ([("name", .text m.name), ("value", .integer m.value.toInt)]
    ++ documented m.documentation)

/-- What stands for a unit. -/
def FlatUnit.EncodedBy : FlatUnit → Form
  | struct s =>
    .exactly ([("kind", .text "structure"), ("name", .text s.name),
      ("fields", .list (s.fields.map FlatField.EncodedBy))] ++ documented s.documentation)
  | enum e =>
    .exactly ([("kind", .text "enumeration"), ("name", .text e.name),
      ("members", .list (e.members.map FlatMember.EncodedBy))] ++ documented e.documentation)

/-- What stands for a register: a unit for each of its units, in order. -/
def Register.EncodedBy (r : Register) : Form := .list (r.units.map FlatUnit.EncodedBy)

/-- The encoding of a field is a value that stands for it. -/
theorem FlatField.encodedBy_toJson (f : FlatField) : f.EncodedBy f.toJson.node :=
  exactly_node (.cons ⟨rfl, text_node _⟩ (.cons ⟨rfl, text_node _⟩ (documented_optionalText _)))

theorem FlatMember.encodedBy_toJson (m : FlatMember) : m.EncodedBy m.toJson.node :=
  exactly_node (.cons ⟨rfl, text_node _⟩ (.cons ⟨rfl, integer_node _⟩ (documented_optionalText _)))

/-- What is written for a unit encodes it, its kind included. -/
theorem FlatUnit.encodedBy_toJson (u : FlatUnit) : u.EncodedBy u.toJson.node := by
  cases u with
  | struct s =>
    have fields := list_node fun f (_ : f ∈ s.fields) ↦ f.encodedBy_toJson
    exact exactly_node (.cons ⟨rfl, text_node _⟩ (.cons ⟨rfl, text_node _⟩
      (.cons ⟨rfl, fields⟩ (documented_optionalText _))))
  | enum e =>
    have members := list_node fun m (_ : m ∈ e.members) ↦ m.encodedBy_toJson
    exact exactly_node (.cons ⟨rfl, text_node _⟩ (.cons ⟨rfl, text_node _⟩
      (.cons ⟨rfl, members⟩ (documented_optionalText _))))

/-- A register is encoded by the array of what is written for its units. -/
theorem Register.encodedBy_toJson (r : Register) : r.EncodedBy r.toJson.node :=
  list_node fun u _ ↦ u.encodedBy_toJson

/-! ### What a value stands for -/

/-- An object encodes one field at most: its members give the name, the type and the
documentation. -/
theorem FlatField.unambiguous_encodedBy : Unambiguous FlatField.EncodedBy := by
  rintro ⟨name, type, text⟩ ⟨name', type', text'⟩ n h h'
  cases shared_of_exactly h h' with
  | cons names rest =>
  cases rest with
  | cons types texts =>
  obtain rfl : name = name' := unambiguous_text.eq_of_shared names
  obtain rfl : type = type' := unambiguous_text.eq_of_shared types
  obtain rfl : text = text' := eq_of_shared_documented texts
  rfl

theorem FlatMember.unambiguous_encodedBy : Unambiguous FlatMember.EncodedBy := by
  rintro ⟨name, value, text⟩ ⟨name', value', text'⟩ n h h'
  cases shared_of_exactly h h' with
  | cons names rest =>
  cases rest with
  | cons values texts =>
  obtain rfl : name = name' := unambiguous_text.eq_of_shared names
  obtain rfl : value = value' := Int64.toInt_inj.1 (unambiguous_integer.eq_of_shared values)
  obtain rfl : text = text' := eq_of_shared_documented texts
  rfl

/-- What follows the kind of a unit can be told if the parts can. -/
theorem Form.eq_of_shared_rest {α : Type} {form : α → Form} (parts : Unambiguous form)
    {key key' name name' : String} {xs xs' : List α} {text text' : Option String}
    (h : List.Forall₂ Shared
      ([("name", .text name), (key, .list (xs.map form))] ++ documented text)
      ([("name", .text name'), (key', .list (xs'.map form))] ++ documented text')) :
    name = name' ∧ xs = xs' ∧ text = text' := by
  cases h with
  | cons names rest =>
  cases rest with
  | cons lists texts =>
  exact ⟨unambiguous_text.eq_of_shared names, parts.list.eq_of_shared lists,
    eq_of_shared_documented texts⟩

/-- The kind in the object tells structures and enumerations apart; within a kind the members
decide. -/
theorem FlatUnit.unambiguous_encodedBy : Unambiguous FlatUnit.EncodedBy := by
  intro u u' n h h'
  cases u with
  | struct s =>
    cases u' with
    | struct s' =>
      cases shared_of_exactly h h' with
      | cons kinds rest =>
      obtain ⟨names, fields, texts⟩ := eq_of_shared_rest FlatField.unambiguous_encodedBy rest
      cases s
      cases s'
      congr
    | enum e' =>
      cases shared_of_exactly h h' with
      | cons kinds rest => exact absurd (unambiguous_text.eq_of_shared kinds) (by decide)
  | enum e =>
    cases u' with
    | struct s' =>
      cases shared_of_exactly h h' with
      | cons kinds rest => exact absurd (unambiguous_text.eq_of_shared kinds) (by decide)
    | enum e' =>
      cases shared_of_exactly h h' with
      | cons kinds rest =>
      obtain ⟨names, members, texts⟩ := eq_of_shared_rest FlatMember.unambiguous_encodedBy rest
      cases e
      cases e'
      congr

/-- So an array encodes one register at most. -/
theorem Register.unambiguous_encodedBy : Unambiguous Register.EncodedBy := by
  rintro ⟨units⟩ ⟨units'⟩ n h h'
  rw [FlatUnit.unambiguous_encodedBy.list units units' n h h']

/-! ### The text of a register -/

/-- The text of an array ends with its bracket. -/
theorem Json.Value.getLast?_pretty_array (items : List Value) :
    (Value.array items).pretty.toList.getLast? = some ']' := by
  rw [Value.pretty, String.toList_ofList]
  cases items with
  | nil => rfl
  | cons v rest => rw [Value.prettyChars, List.getLast?_concat]

/-- A line feed may follow a document. -/
theorem Json.Node.Written.append_lineFeed {n : Node} {text : String} (h : n.Written text) :
    n.Written (text ++ "\n") := by
  have lineFeed : Blank ['\n'] := by simp [Blank, blanks]
  have ending := tokensWritten_nil.append_blank lineFeed
  refine ⟨h.1, ?_⟩
  simpa using h.2.append ending

/-- The JSON of a register is a document and one line feed. The document is an array with an object
for each unit in order, which has the kind, name, fields or members of the unit, its documentation
if it has one, and nothing else. Registers with the same JSON are the same. -/
theorem Register.emit_json_lossless :
    (∀ r : Register, ∃ (document : String) (n : Node),
      r.emit .json = document ++ "\n" ∧ document.toList.getLast? = some ']' ∧
      n.Written document ∧ r.EncodedBy n ∧ Document.read (r.emit .json) = ⟨n, false⟩) ∧
    ∀ r r' : Register, r.emit .json = r'.emit .json → r = r' := by
  have written (r : Register) : r.toJson.node.Written (r.emit .json) :=
    r.toJson.written_pretty.append_lineFeed
  refine ⟨fun r ↦ ⟨r.toJson.pretty, r.toJson.node, rfl, Value.getLast?_pretty_array _,
    r.toJson.written_pretty, r.encodedBy_toJson, (Document.read_eq_iff.2 (written r)).1⟩, ?_⟩
  intro r r' same
  have node : r.toJson.node = r'.toJson.node := (written r).unique (same ▸ written r')
  exact unambiguous_encodedBy r r' _ r.encodedBy_toJson (node ▸ r'.encodedBy_toJson)

end FlatDecls
