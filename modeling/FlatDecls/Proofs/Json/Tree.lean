import FlatDecls.Json.Document
import FlatDecls.Proofs.Json.Tokens

/-!
# Trees and their texts

A tree is *whole* if it holds no break. A whole tree has a list of tokens, and a text is a text of
the tree if it consists of these tokens with blanks between (`Node.Written`): this is the grammar
of JSON, given tree by tree.
-/

namespace FlatDecls.Json

/-! ### Whole trees -/

mutual

/-- Is the value there up to its end? -/
def Node.Whole : Node → Prop
  | .atom _ => True
  | .array items => wholeItems items
  | .object members => wholeMembers members
  | .missing _ => False

/-- Are all items there? -/
def wholeItems : List Node → Prop
  | [] => True
  | n :: rest => n.Whole ∧ wholeItems rest

/-- Are all members there? -/
def wholeMembers : List Member → Prop
  | [] => True
  | .pair _ n :: rest => n.Whole ∧ wholeMembers rest
  | .missing _ :: _ => False

end

@[simp]
theorem Node.whole_atom (a : Atom) : (Node.atom a).Whole := by
  rw [Whole]
  trivial

@[simp]
theorem Node.not_whole_missing (b : Break) : ¬ (Node.missing b).Whole := by
  rw [Whole]
  exact id

/-- An array is whole if all of its items are. -/
@[simp]
theorem Node.whole_array_iff {items : List Node} :
    (Node.array items).Whole ↔ ∀ n ∈ items, n.Whole := by
  rw [Whole]
  induction items with
  | nil => simp [wholeItems]
  | cons n rest ih => simp [wholeItems, ih]

/-- An object is whole if all of its members are pairs with whole values. -/
@[simp]
theorem Node.whole_object_iff {members : List Member} :
    (Node.object members).Whole ↔ ∀ m ∈ members, ∃ key n, m = .pair key n ∧ n.Whole := by
  rw [Whole]
  induction members with
  | nil => simp [wholeMembers]
  | cons m rest ih => cases m <;> simp [wholeMembers, ih]

/-- A property of a value may be assumed of its items or of the values of its members. -/
@[elab_as_elim]
theorem Node.valueInduction {P : Node → Prop} (atom : ∀ a, P (.atom a))
    (array : ∀ items, (∀ n ∈ items, P n) → P (.array items))
    (object : ∀ members, (∀ key n, .pair key n ∈ members → P n) → P (.object members))
    (missing : ∀ b, P (.missing b)) (n : Node) : P n :=
  match n with
  | .atom a => atom a
  | .array items => array items fun n _ ↦ valueInduction atom array object missing n
  | .object members =>
    object members fun _ n hn ↦
      have : sizeOf n < 1 + sizeOf members := by
        have smaller := List.sizeOf_lt_of_mem hn
        simp only [Member.pair.sizeOf_spec] at smaller
        omega
      valueInduction atom array object missing n
  | .missing b => missing b
termination_by sizeOf n

/-- A reader that passes over a value meets no fault exactly if the value is whole. -/
theorem Node.passedFault?_eq_none_iff {n : Node} : n.passedFault? = none ↔ n.Whole := by
  induction n using Node.valueInduction with
  | atom a => simp [passedFault?]
  | missing b => simp [passedFault?]
  | array items ih =>
    rw [passedFault?, whole_array_iff]
    induction items with
    | nil => simp [passedItemFault?]
    | cons n rest more =>
      have more := more fun n hn ↦ ih n (List.mem_cons_of_mem _ hn)
      simp [passedItemFault?, more, ih n List.mem_cons_self]
  | object members ih =>
    rw [passedFault?, whole_object_iff]
    induction members with
    | nil => simp [passedMemberFault?]
    | cons m rest more =>
      have more := more fun key n hn ↦ ih key n (List.mem_cons_of_mem _ hn)
      cases m with
      | pair key n => simp [passedMemberFault?, more, ih key n List.mem_cons_self]
      | missing b => simp [passedMemberFault?]

/-! ### Tokens -/

/-- Lists of tokens with commas between them. -/
def joined : List (List Token) → List Token
  | [] => []
  | ts :: rest => ts ++ rest.flatMap (.comma :: ·)

/-- A key as a token. -/
def Key.atom : Key → Atom
  | name s => .string s
  | loneSurrogate f => .loneSurrogate f

mutual

/-- The tokens of a whole value. -/
def Node.tokens : Node → List Token
  | .atom a => [.atom a]
  | .array items => .openArray :: (joined (itemTokens items) ++ [.closeArray])
  | .object members => .openObject :: (joined (memberTokens members) ++ [.closeObject])
  | .missing _ => []

/-- The tokens of each item. -/
def itemTokens : List Node → List (List Token)
  | [] => []
  | n :: rest => n.tokens :: itemTokens rest

/-- The tokens of each member. -/
def memberTokens : List Member → List (List Token)
  | [] => []
  | .pair key n :: rest => (.atom key.atom :: .colon :: n.tokens) :: memberTokens rest
  | .missing _ :: rest => [] :: memberTokens rest

end

/-- The tokens of a member. -/
def Member.tokens : Member → List Token
  | pair key n => .atom key.atom :: .colon :: n.tokens
  | missing _ => []

@[simp]
theorem Node.tokens_atom (a : Atom) : (Node.atom a).tokens = [.atom a] := by
  rw [tokens]

/-- The tokens of an array are those of its items, with commas between them. -/
@[simp]
theorem Node.tokens_array (items : List Node) :
    (Node.array items).tokens =
      .openArray :: (joined (items.map Node.tokens) ++ [.closeArray]) := by
  have each : itemTokens items = items.map Node.tokens := by
    induction items with
    | nil => rfl
    | cons n rest ih => rw [itemTokens, ih, List.map_cons]
  rw [tokens, each]

/-- The tokens of an object are those of its members. -/
@[simp]
theorem Node.tokens_object (members : List Member) :
    (Node.object members).tokens =
      .openObject :: (joined (members.map Member.tokens) ++ [.closeObject]) := by
  have each : memberTokens members = members.map Member.tokens := by
    induction members with
    | nil => rfl
    | cons m rest ih => cases m <;> rw [memberTokens, ih, List.map_cons, Member.tokens]
  rw [tokens, each]

/-- One more list of tokens at the end. -/
theorem joined_concat (tss : List (List Token)) (ts : List Token) :
    joined (tss ++ [ts]) = tss.flatMap (· ++ [.comma]) ++ ts := by
  have shifted (tss : List (List Token)) (ts : List Token) :
      ts ++ (tss.flatMap (.comma :: ·)) ++ [.comma] = (ts :: tss).flatMap (· ++ [.comma]) := by
    induction tss generalizing ts with
    | nil => simp
    | cons us tss ih =>
      rw [List.flatMap_cons, List.flatMap_cons, ← ih us]
      simp
  cases tss with
  | nil => simp [joined]
  | cons us tss =>
    rw [List.cons_append, joined, ← shifted]
    simp

/-! ### Separation -/

/-- Tokens on both sides of a token that is no value without parts. -/
theorem separated_append_cons {ss ts : List Token} {t : Token} (h : t.isAtom = false) :
    Separated (ss ++ t :: ts) ↔ Separated ss ∧ Separated ts := by
  simp only [Separated, List.isChain_append, List.isChain_cons, h, List.head?_cons]
  simp [h]

/-- A mark needs no blank behind it. -/
theorem separated_cons {ts : List Token} {t : Token} (h : t.isAtom = false) :
    Separated (t :: ts) ↔ Separated ts := by
  have both : Separated ([] ++ t :: ts) ↔ Separated [] ∧ Separated ts := separated_append_cons h
  simpa [Separated] using both

/-- Commas keep the tokens of items apart. -/
theorem separated_joined {tss : List (List Token)} (h : ∀ ts ∈ tss, Separated ts) :
    Separated (joined tss) := by
  cases tss with
  | nil => exact .nil
  | cons ts tss =>
    have ⟨first, more⟩ := List.forall_mem_cons.1 h
    rw [joined]
    induction tss generalizing ts with
    | nil => simpa using first
    | cons us tss ih =>
      rw [List.flatMap_cons, List.cons_append, separated_append_cons rfl]
      exact ⟨first, ih us more (more us List.mem_cons_self)
        fun ts hts ↦ more ts (List.mem_cons_of_mem _ hts)⟩

/-- In the tokens of a value nothing stands beside a value without parts but a mark. -/
theorem Node.separated_tokens (n : Node) : Separated n.tokens := by
  induction n using Node.valueInduction with
  | atom a => exact tokens_atom a ▸ List.isChain_singleton _
  | missing b => exact List.isChain_nil
  | array items ih =>
    rw [tokens_array, separated_cons rfl, separated_append_cons rfl]
    refine ⟨separated_joined ?_, .nil⟩
    simpa using ih
  | object members ih =>
    rw [tokens_object, separated_cons rfl, separated_append_cons rfl]
    refine ⟨separated_joined ?_, .nil⟩
    intro ts hts
    obtain ⟨m, hm, rfl⟩ := List.mem_map.1 hts
    cases m with
    | missing b => exact .nil
    | pair key n =>
      show Separated ([.atom key.atom] ++ .colon :: n.tokens)
      rw [separated_append_cons rfl]
      exact ⟨List.isChain_singleton _, ih key n hm⟩

/-- Every token of a value is readable. -/
theorem Node.unreadable_notMem_tokens (n : Node) (b : Bool) (d : Defect) :
    .unreadable b d ∉ n.tokens := by
  have among {tss : List (List Token)} (h : .unreadable b d ∈ joined tss) :
      ∃ ts ∈ tss, .unreadable b d ∈ ts := by
    cases tss with
    | nil => cases h
    | cons ts tss => simpa [joined] using h
  induction n using Node.valueInduction with
  | atom a => simp
  | missing _ => simp [tokens]
  | array items ih =>
    intro h
    have h : .unreadable b d ∈ joined (items.map Node.tokens) := by simpa using h
    obtain ⟨ts, hts, h⟩ := among h
    obtain ⟨n, hn, rfl⟩ := List.mem_map.1 hts
    exact ih n hn h
  | object members ih =>
    intro h
    have h : .unreadable b d ∈ joined (members.map Member.tokens) := by simpa using h
    obtain ⟨ts, hts, h⟩ := among h
    obtain ⟨m, hm, rfl⟩ := List.mem_map.1 hts
    cases m with
    | missing _ => cases h
    | pair key n => exact ih key n hm (by simpa [Member.tokens] using h)

/-! ### Texts -/

/-- A text of a whole tree: its tokens, with blanks between. -/
structure Node.Written (n : Node) (text : String) : Prop where
  whole : n.Whole
  tokens : TokensWritten n.tokens text.toList

end FlatDecls.Json
