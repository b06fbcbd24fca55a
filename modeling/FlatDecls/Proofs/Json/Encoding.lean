import FlatDecls.Json.Value
import FlatDecls.Proofs.Json.Integers
import FlatDecls.Proofs.Json.Tree

/-!
# Values and their texts

A value that is to be written has a tree (`Value.node`), and both its texts, with and without
blanks, are texts of this tree (`Value.written_compact`, `Value.written_pretty`).
-/

namespace FlatDecls.Json

open Text (HexDigit hexDigit hexDigit_written positional)

/-! ### The tree of a value -/

mutual

/-- The tree of a value. -/
def Value.node : Value → Node
  | .null => .atom .null
  | .boolean b => .atom (.boolean b)
  | .integer i => .atom (.number (.ofInt i))
  | .string s => .atom (.string s)
  | .array items => .array (itemNodes items)
  | .object members => .object (memberNodes members)

/-- The tree of each item. -/
def itemNodes : List Value → List Node
  | [] => []
  | v :: rest => v.node :: itemNodes rest

/-- Each member with the tree of its value. -/
def memberNodes : List (String × Value) → List Member
  | [] => []
  | (key, v) :: rest => .pair (.name key) v.node :: memberNodes rest

end

mutual

/-- The number of containers that are open at once in a value. -/
def Value.depth : Value → Nat
  | .array items => itemDepth items + 1
  | .object members => memberDepth members + 1
  | _ => 0

/-- The greatest depth of an item. -/
def itemDepth : List Value → Nat
  | [] => 0
  | v :: rest => max v.depth (itemDepth rest)

/-- The greatest depth of the value of a member. -/
def memberDepth : List (String × Value) → Nat
  | [] => 0
  | (_, v) :: rest => max v.depth (memberDepth rest)

end

namespace Value

variable {items : List Value} {members : List (String × Value)} {b : Nat}

/-- The tree of an array holds the trees of its items. -/
@[simp]
theorem node_array (items : List Value) : (array items).node = .array (items.map node) := by
  have each : itemNodes items = items.map node := by
    induction items with
    | nil => rfl
    | cons v rest ih => rw [itemNodes, ih, List.map_cons]
  rw [node, each]

/-- The tree of an object holds the trees of its members, under the same keys. -/
@[simp]
theorem node_object (members : List (String × Value)) :
    (object members).node = .object (members.map fun m ↦ .pair (.name m.1) m.2.node) := by
  have each : memberNodes members = members.map fun m ↦ .pair (.name m.1) m.2.node := by
    induction members with
    | nil => rfl
    | cons m rest ih => rw [memberNodes, ih, List.map_cons]
  rw [node, each]

/-- An array takes one container more than the deepest of its items. -/
theorem depth_array_le_iff : (array items).depth ≤ b + 1 ↔ ∀ v ∈ items, v.depth ≤ b := by
  rw [depth, Nat.add_le_add_iff_right]
  induction items with
  | nil => simp [itemDepth]
  | cons v rest ih => rw [itemDepth, Nat.max_le, ih, List.forall_mem_cons]

/-- An object takes one more than the deepest of its members. -/
theorem depth_object_le_iff : (object members).depth ≤ b + 1 ↔ ∀ m ∈ members, m.2.depth ≤ b := by
  rw [depth, Nat.add_le_add_iff_right]
  induction members with
  | nil => simp [memberDepth]
  | cons m rest ih => rw [memberDepth, Nat.max_le, ih, List.forall_mem_cons]

/-- A property of a value may be assumed of its items or of the values of its members. -/
@[elab_as_elim]
theorem partsInduction {P : Value → Prop} (null : P .null) (boolean : ∀ b, P (.boolean b))
    (integer : ∀ i, P (.integer i)) (string : ∀ s, P (.string s))
    (array : ∀ items, (∀ v ∈ items, P v) → P (.array items))
    (object : ∀ members, (∀ m ∈ members, P m.2) → P (.object members)) (v : Value) : P v :=
  match v with
  | .null => null
  | .boolean b => boolean b
  | .integer i => integer i
  | .string s => string s
  | .array items =>
    array items fun v _ ↦ partsInduction null boolean integer string array object v
  | .object members =>
    object members fun m hm ↦
      have : sizeOf m.2 < 1 + sizeOf members := by
        have smaller := List.sizeOf_lt_of_mem hm
        rcases m with ⟨key, v⟩
        simp only [Prod.mk.sizeOf_spec] at smaller ⊢
        omega
      partsInduction null boolean integer string array object m.2
termination_by sizeOf v

/-- The tree of a value has no breaks. -/
theorem whole_node (v : Value) : v.node.Whole := by
  induction v using partsInduction with
  | array items ih =>
    rw [node_array, Node.whole_array_iff, List.forall_mem_map]
    exact ih
  | object members ih =>
    rw [node_object, Node.whole_object_iff, List.forall_mem_map]
    exact fun m hm ↦ ⟨_, _, rfl, ih m hm⟩
  | _ =>
    rw [node]
    exact Node.whole_atom _

end Value

/-! ### Strings -/

/-- The four digits of a code unit below the space. -/
theorem digits_of_control {n : Nat} (h : n < 0x20) :
    List.Forall₂ HexDigit [0, 0, n / 16, n % 16]
        ['0', '0', hexDigit (n / 16), hexDigit (n % 16)] ∧
      positional 16 [0, 0, n / 16, n % 16] = n := by
  have zero : HexDigit 0 '0' := by decide
  have high : HexDigit (n / 16) (hexDigit (n / 16)) := hexDigit_written (by omega)
  have low : HexDigit (n % 16) (hexDigit (n % 16)) := hexDigit_written (by omega)
  refine ⟨.cons zero (.cons zero (.cons high (.cons low .nil))), ?_⟩
  simp only [positional, List.length_cons, List.length_nil]
  omega

/-- A character is written as one piece that stands for it. -/
theorem exists_piece_escapeChar (c : Char) : ∃ p : Piece, p.Written (Value.escapeChar c) ∧
    ∀ ps cs, Piece.StandFor ps cs → Piece.StandFor (p :: ps) (c :: cs) := by
  have short {e : Char} (letter : (e, c) ∈ Piece.shortEscapes) : ∃ p : Piece,
      p.Written ['\\', e] ∧ ∀ ps cs, Piece.StandFor ps cs → Piece.StandFor (p :: ps) (c :: cs) :=
    ⟨.char c, .short letter, fun _ _ ↦ .char⟩
  rw [Value.escapeChar]
  -- that the character is neither of these two is named, since a plain one must not be
  split
  next same => exact short (by rw [same]; decide)
  next quote =>
  split
  next same => exact short (by rw [same]; decide)
  next backslash =>
  split
  next same => exact short (by rw [same]; decide)
  split
  next same => exact short (by rw [same]; decide)
  split
  next same => exact short (by rw [same]; decide)
  split
  next same => exact short (by rw [same]; decide)
  split
  next same => exact short (by rw [same]; decide)
  split
  next control =>
    obtain ⟨digits, number⟩ := digits_of_control control
    exact ⟨.unit c.toNat, .unit digits number, fun _ _ ↦ .unit rfl⟩
  next printed => exact ⟨.char c, .plain (Nat.not_lt.1 printed) quote backslash, fun _ _ ↦ .char⟩

/-- What is written for characters consists of pieces that stand for these characters: an escape
where one is needed, else the character itself. -/
theorem exists_pieces_escape (cs : List Char) :
    ∃ ps, InARow Piece.Written ps (cs.flatMap Value.escapeChar) ∧ Piece.StandFor ps cs := by
  induction cs with
  | nil => exact ⟨[], .nil, .nil⟩
  | cons c cs ih =>
    obtain ⟨ps, pieces, text⟩ := ih
    obtain ⟨p, piece, stands⟩ := exists_piece_escapeChar c
    exact ⟨p :: ps, .cons piece pieces, stands ps cs text⟩

/-- A string is written with its quotes. -/
theorem written_quote (s : String) : (Atom.string s).Written (Value.quote s) := by
  obtain ⟨ps, pieces, text⟩ := exists_pieces_escape s.toList
  exact .string pieces text

/-! ### Texts -/

/-- Blanks may be written in front. -/
theorem TokensWritten.append_blank {ts : List Token} {bs cs : List Char} (blank : Blank bs)
    (rest : TokensWritten ts cs) : TokensWritten ts (bs ++ cs) := by
  induction bs with
  | nil => exact rest
  | cons b bs ih =>
    have ⟨first, blank⟩ := List.forall_mem_cons.1 blank
    exact (ih blank).cons_blank first

/-- Texts of lists of tokens stand one behind the other. -/
theorem TokensWritten.append {ts us : List Token} {cs ds : List Char} (first : TokensWritten ts cs)
    (second : TokensWritten us ds) : TokensWritten (ts ++ us) (cs ++ ds) := by
  obtain ⟨tokens, blank⟩ := first
  induction tokens with
  | nil => exact second.append_blank blank
  | cons spaced rest ih =>
    obtain ⟨before, written⟩ := spaced
    have more := (TokensWritten.cons written ih).append_blank before
    simpa only [List.append_assoc, List.cons_append] using more

theorem tokensWritten_nil : TokensWritten [] [] := .mk (.nil : InARow Token.Spaced [] []) nofun

/-- A text of one token. -/
theorem Token.Written.tokensWritten {t : Token} {cs : List Char} (h : t.Written cs) :
    TokensWritten [t] cs := by
  simpa using TokensWritten.cons h tokensWritten_nil

namespace Value

/-- Values without parts are written as their tokens. -/
theorem tokensWritten_atomText {a : Atom} {cs : List Char} (h : a.Written cs) :
    TokensWritten (Node.atom a).tokens cs := by
  rw [Node.tokens_atom]
  exact (Token.Written.atom h).tokensWritten

/-- A truth value is written as its word. -/
theorem written_boolean (b : Bool) : (Atom.boolean b).Written (toString b).toList := by
  cases b with
  | false => exact .literalFalse
  | true => exact .literalTrue

/-- Texts with commas between them, and blanks before each. -/
def listed (lead : List Char) : List (List Char) → List Char
  | [] => []
  | [text] => lead ++ text
  | text :: rest => lead ++ text ++ ',' :: listed lead rest

/-- Items with commas between them are written if each of them is. -/
theorem tokensWritten_listed {lead : List Char} (blank : Blank lead) {tss : List (List Token)}
    {texts : List (List Char)} (h : List.Forall₂ TokensWritten tss texts) :
    TokensWritten (joined tss) (listed lead texts) := by
  induction h with
  | nil => exact tokensWritten_nil
  | @cons ts text tss texts first rest ih =>
    have first := first.append_blank blank
    cases rest with
    | nil => simpa [joined, listed] using first
    | cons second rest =>
      have comma : Token.comma.Written [','] := .punctuation (by decide)
      exact first.append (.cons comma ih)

/-- Tokens between marks, with blanks before the last. -/
theorem tokensWritten_between {ts : List Token} {cs bs : List Char} {l r : Token} {c d : Char}
    (opens : (c, l) ∈ marks) (h : TokensWritten ts cs) (blank : Blank bs)
    (closes : (d, r) ∈ marks) :
    TokensWritten (l :: (ts ++ [r])) (c :: cs ++ bs ++ [d]) := by
  have closed := (Token.Written.punctuation closes).tokensWritten.append_blank blank
  have all := TokensWritten.cons (.punctuation opens) (h.append closed)
  simpa only [List.nil_append, List.singleton_append, List.cons_append, List.append_assoc] using all

/-- A member with blanks behind its colon. -/
theorem tokensWritten_member {m : String × Value} {bs cs : List Char} (blank : Blank bs)
    (h : TokensWritten m.2.node.tokens cs) :
    TokensWritten (Member.pair (.name m.1) m.2.node).tokens (quote m.1 ++ ':' :: (bs ++ cs)) :=
  .cons (.atom (written_quote m.1)) (.cons (.punctuation (by decide)) (h.append_blank blank))

/-- The compact and the pretty form of an array differ only in the blanks around its items. -/
theorem tokensWritten_array {items : List Value} {lead bs : List Char} {text : Value → List Char}
    (blank : Blank lead) (last : Blank bs) (h : ∀ v ∈ items, TokensWritten v.node.tokens (text v)) :
    TokensWritten (array items).node.tokens
      ('[' :: listed lead (items.map text) ++ bs ++ [']']) := by
  rw [node_array, Node.tokens_array, List.map_map]
  refine tokensWritten_between (by decide) (tokensWritten_listed blank ?_) last (by decide)
  rw [List.forall₂_map_left_iff, List.forall₂_map_right_iff, List.forall₂_same]
  exact h

/-- So do those of an object, which may also have blanks behind its colons. -/
theorem tokensWritten_object {members : List (String × Value)} {lead colon bs : List Char}
    {text : Value → List Char} (blank : Blank lead) (blank' : Blank colon) (last : Blank bs)
    (h : ∀ m ∈ members, TokensWritten m.2.node.tokens (text m.2)) :
    TokensWritten (object members).node.tokens
      ('\x7b' :: listed lead (members.map fun m ↦ quote m.1 ++ ':' :: (colon ++ text m.2))
        ++ bs ++ ['\x7d']) := by
  rw [node_object, Node.tokens_object, List.map_map]
  refine tokensWritten_between (by decide) (tokensWritten_listed blank ?_) last (by decide)
  rw [List.forall₂_map_left_iff, List.forall₂_map_right_iff, List.forall₂_same]
  exact fun m hm ↦ tokensWritten_member blank' (h m hm)

/-! #### Without blanks -/

/-- In the compact form nothing stands in front of an item. -/
theorem compactItems_eq (items : List Value) :
    compactItems items = listed [] (items.map compactChars) := by
  induction items with
  | nil => rfl
  | cons v rest ih =>
    cases rest with
    | nil => rfl
    | cons w rest =>
      rw [compactItems, ih]
      · rfl
      · nofun

theorem compactMembers_eq (members : List (String × Value)) :
    compactMembers members =
      listed [] (members.map fun m ↦ quote m.1 ++ ':' :: ([] ++ m.2.compactChars)) := by
  induction members with
  | nil => rfl
  | cons m rest ih =>
    cases rest with
    | nil => rfl
    | cons w rest =>
      rw [compactMembers, ih]
      · rfl
      · nofun

/-- What is written for a value consists of the tokens of its tree, by induction on the value. -/
theorem tokensWritten_compact (v : Value) : TokensWritten v.node.tokens v.compactChars := by
  have none : Blank [] := nofun
  induction v using partsInduction with
  | null => exact tokensWritten_atomText .null
  | boolean b => exact tokensWritten_atomText (written_boolean b)
  | integer i => exact tokensWritten_atomText (.number (Numeral.written_ofInt i))
  | string s => exact tokensWritten_atomText (written_quote s)
  | array items ih =>
    rw [compactChars, compactItems_eq]
    simpa using tokensWritten_array none none ih
  | object members ih =>
    rw [compactChars, compactMembers_eq]
    simpa using tokensWritten_object none none none ih

/-- The text without blanks is a text of the value's tree. -/
theorem written_compact (v : Value) : v.node.Written v.compact :=
  ⟨v.whole_node, by simpa [compact] using v.tokensWritten_compact⟩

/-! #### With lines -/

/-- A line end and an indentation are blanks. -/
theorem blank_newLine (depth : Nat) : Blank (newLine depth) := by
  intro c hc
  rcases List.mem_cons.1 hc with rfl | hc
  · decide
  · rw [List.eq_of_mem_replicate hc]
    decide

/-- In the pretty form every item has a line of its own. -/
theorem prettyItems_eq (depth : Nat) (items : List Value) :
    prettyItems depth items = listed (newLine depth) (items.map (prettyChars depth)) := by
  induction items with
  | nil => rfl
  | cons v rest ih =>
    cases rest with
    | nil => rfl
    | cons w rest =>
      rw [prettyItems, ih]
      · rfl
      · nofun

theorem prettyMembers_eq (depth : Nat) (members : List (String × Value)) :
    prettyMembers depth members = listed (newLine depth)
      (members.map fun m ↦ quote m.1 ++ ':' :: ([' '] ++ m.2.prettyChars depth)) := by
  induction members with
  | nil => rfl
  | cons m rest ih =>
    cases rest with
    | nil => simp [prettyMembers, listed]
    | cons w rest =>
      rw [prettyMembers, ih]
      · simp [listed]
      · nofun

/-- The pretty form has the same tokens, at every depth. -/
theorem tokensWritten_pretty (v : Value) (depth : Nat) :
    TokensWritten v.node.tokens (v.prettyChars depth) := by
  induction v using partsInduction generalizing depth with
  | null => exact tokensWritten_atomText .null
  | boolean b => exact tokensWritten_atomText (written_boolean b)
  | integer i => exact tokensWritten_atomText (.number (Numeral.written_ofInt i))
  | string s => exact tokensWritten_atomText (written_quote s)
  | array items ih =>
    cases items with
    | nil => exact tokensWritten_compact (.array [])
    | cons v rest =>
      rw [prettyChars, prettyItems_eq]
      exact tokensWritten_array (blank_newLine _) (blank_newLine _) fun v hv ↦ ih v hv _
  | object members ih =>
    cases members with
    | nil => exact tokensWritten_compact (.object [])
    | cons m rest =>
      rw [prettyChars, prettyMembers_eq]
      have space : Blank [' '] := by simp [Blank, blanks]
      exact tokensWritten_object (blank_newLine _) space (blank_newLine _) fun m hm ↦ ih m hm _

/-- The text with lines is a text of the value's tree. -/
theorem written_pretty (v : Value) : v.node.Written v.pretty :=
  ⟨v.whole_node, by simpa [pretty] using v.tokensWritten_pretty 0⟩

end Value

end FlatDecls.Json
