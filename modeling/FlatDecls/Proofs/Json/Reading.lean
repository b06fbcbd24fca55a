import FlatDecls.Proofs.Json.Tree

/-!
# Reading gives the tree of a text

The tokens that a reading has taken so far can be told from its state (`Reading.consumed`), and each
step adds the token that it takes. So a reading that ends with a whole tree has taken just the
tokens of that tree (`Reading.eq_of_run`). In the other direction, the tokens of a whole value lead
from a state in which a value is due to the state in which it has taken its place
(`Reading.run_tokens`).

Together: what is read off a text is a whole tree with nothing behind it exactly if the text is a
text of that tree (`Document.read_eq_iff`), so no text has two trees (`Node.Written.unique`).
-/

namespace FlatDecls.Json

namespace Reading

variable {s s' : Reading} {t : Token} {outer : List Frame} {n : Node}

/-! ### What has been read -/

/-- Lists of tokens with a comma behind each. -/
def eachJoined (tss : List (List Token)) : List Token := tss.flatMap (· ++ [.comma])

/-- The tokens of the open containers, up to the place where the next value is due. -/
def frameTokens : List Frame → List Token
  | [] => []
  | .array items :: outer =>
    frameTokens outer ++ .openArray :: eachJoined (items.map Node.tokens).reverse
  | .object members key :: outer =>
    frameTokens outer ++ .openObject ::
      (eachJoined (members.map Member.tokens).reverse ++ [.atom key.atom, .colon])

/-- The tokens that have been taken. -/
def consumed : Reading → List Token
  | value outer => frameTokens outer
  | firstItem outer => frameTokens outer ++ [.openArray]
  | nextItem items outer => frameTokens (.array items :: outer)
  | itemEnd items outer =>
    frameTokens outer ++ .openArray :: joined (items.map Node.tokens).reverse
  | firstKey outer => frameTokens outer ++ [.openObject]
  | nextKey members outer =>
    frameTokens outer ++ .openObject :: eachJoined (members.map Member.tokens).reverse
  | colon members key outer =>
    frameTokens outer ++ .openObject ::
      (eachJoined (members.map Member.tokens).reverse ++ [.atom key.atom])
  | memberEnd members outer =>
    frameTokens outer ++ .openObject :: joined (members.map Member.tokens).reverse
  | done root => root.tokens

/-- Where an item or member has ended there is one. -/
def Proper : Reading → Prop
  | itemEnd items _ => items ≠ []
  | memberEnd members _ => members ≠ []
  | _ => True

/-- Behind the last of some lists a comma completes them. -/
theorem joined_append_comma {tss : List (List Token)} (h : tss ≠ []) :
    joined tss ++ [.comma] = eachJoined tss := by
  rw [← List.dropLast_append_getLast h, joined_concat, eachJoined, List.flatMap_append,
    List.append_assoc, List.flatMap_singleton]

/-- A value that takes its place adds its tokens. -/
theorem consumed_deliver (outer : List Frame) (n : Node) :
    (deliver outer n).consumed = frameTokens outer ++ n.tokens ∧ (deliver outer n).Proper := by
  rcases outer with _ | ⟨items | ⟨members, key⟩, outer⟩
  · exact ⟨rfl, trivial⟩
  · refine ⟨?_, List.cons_ne_nil _ _⟩
    rw [deliver, consumed, List.map_cons, List.reverse_cons, joined_concat, frameTokens]
    simp [eachJoined]
  · refine ⟨?_, List.cons_ne_nil _ _⟩
    rw [deliver, consumed, List.map_cons, List.reverse_cons, joined_concat, frameTokens]
    simp [eachJoined, Member.tokens]

theorem consumed_beginValue (h : beginValue? outer t = some s) :
    s.consumed = frameTokens outer ++ [t] ∧ s.Proper := by
  cases t with
  | atom a =>
    obtain rfl := Option.some.inj h
    simpa using consumed_deliver outer (.atom a)
  | openArray =>
    obtain rfl := Option.some.inj h
    exact ⟨rfl, trivial⟩
  | openObject =>
    obtain rfl := Option.some.inj h
    exact ⟨rfl, trivial⟩
  | _ => cases h

theorem consumed_beginMember {members : List Member} (h : beginMember? members outer t = some s) :
    s.consumed = (nextKey members outer).consumed ++ [t] ∧ s.Proper := by
  rw [beginMember?.eq_def] at h
  split at h
  · obtain rfl := Option.some.inj h
    exact ⟨by simp [consumed, Key.atom], trivial⟩
  · obtain rfl := Option.some.inj h
    exact ⟨by simp [consumed, Key.atom], trivial⟩
  · cases h

/-- A step takes its token. -/
theorem consumed_step (h : s.step? t = some s') (proper : s.Proper) :
    s'.consumed = s.consumed ++ [t] ∧ s'.Proper := by
  rw [step?.eq_def] at h
  split at h
  next => exact consumed_beginValue h
  next =>
    obtain rfl := Option.some.inj h
    simpa [consumed, joined] using consumed_deliver _ (.array [])
  next =>
    obtain ⟨taken, proper⟩ := consumed_beginValue h
    exact ⟨by simpa [consumed, frameTokens, eachJoined] using taken, proper⟩
  next => exact consumed_beginValue h
  next items outer =>
    -- a comma follows the last item, and there is one
    obtain rfl := Option.some.inj h
    refine ⟨?_, trivial⟩
    have some : (items.map Node.tokens).reverse ≠ [] := by simpa [Proper] using proper
    rw [consumed, frameTokens, ← joined_append_comma some]
    simp [consumed]
  next items outer =>
    obtain rfl := Option.some.inj h
    simpa [consumed] using consumed_deliver outer (.array items.reverse)
  next =>
    obtain rfl := Option.some.inj h
    simpa [consumed, joined] using consumed_deliver _ (.object [])
  next =>
    obtain ⟨taken, proper⟩ := consumed_beginMember h
    exact ⟨by simpa [consumed, eachJoined] using taken, proper⟩
  next => exact consumed_beginMember h
  next =>
    obtain rfl := Option.some.inj h
    exact ⟨by simp [consumed, frameTokens], trivial⟩
  next members outer =>
    obtain rfl := Option.some.inj h
    refine ⟨?_, trivial⟩
    have some : (members.map Member.tokens).reverse ≠ [] := by simpa [Proper] using proper
    rw [consumed, ← joined_append_comma some]
    simp [consumed]
  next members outer =>
    obtain rfl := Option.some.inj h
    simpa [consumed] using consumed_deliver outer (.object members.reverse)
  next => cases h

/-! ### Whole trees are read from their tokens -/

/-- A value around which containers are closed is whole only if it is. -/
theorem whole_of_unwind (h : (unwind outer n).Whole) : n.Whole := by
  fun_induction unwind outer n with
  | case1 n => exact h
  | case2 items outer n ih => exact Node.whole_array_iff.1 (ih h) n (by simp)
  | case3 members key outer n ih =>
    obtain ⟨_, _, same, whole⟩ := Node.whole_object_iff.1 (ih h) (.pair key n) (by simp)
    obtain ⟨-, rfl⟩ := Member.pair.inj same
    exact whole

/-- Where reading breaks off, the tree is whole only if reading was done, and then a token that is
left is noted. -/
theorem eq_done_of_breakOff {token : Option Token} (h : s.breakOff token = ⟨n, false⟩)
    (whole : n.Whole) : s = done n ∧ token = none := by
  have item {items : List Node} {outer : List Frame} {b : Break}
      (h : breakItems items outer b = ⟨n, false⟩) : False := by
    obtain ⟨rfl, -⟩ := Document.mk.inj h
    exact Node.not_whole_missing b (Node.whole_array_iff.1 (whole_of_unwind whole) _ (by simp))
  have member {members : List Member} {outer : List Frame} {b : Break}
      (h : breakMembers members outer b = ⟨n, false⟩) : False := by
    obtain ⟨rfl, -⟩ := Document.mk.inj h
    obtain ⟨_, _, same, -⟩ :=
      Node.whole_object_iff.1 (whole_of_unwind whole) (.missing b) (by simp)
    cases same
  cases s with
  | value outer =>
    obtain ⟨rfl, -⟩ := Document.mk.inj h
    exact absurd (whole_of_unwind whole) (Node.not_whole_missing _)
  | colon members key outer =>
    obtain ⟨rfl, -⟩ := Document.mk.inj h
    exact absurd (whole_of_unwind whole) (Node.not_whole_missing _)
  | firstItem | nextItem | itemEnd => exact (item h).elim
  | firstKey | nextKey | memberEnd => exact (member h).elim
  | done root =>
    obtain ⟨rfl, left⟩ := Document.mk.inj h
    exact ⟨rfl, by simpa using left⟩

/-- A reading that ends with a whole tree has taken the tokens of that tree. -/
theorem eq_of_run {ts : List Token} (h : s.run ts = ⟨n, false⟩) (whole : n.Whole)
    (proper : s.Proper) : s.consumed ++ ts = n.tokens := by
  -- each step moves its token from what is left to what is taken
  induction ts generalizing s with
  | nil =>
    obtain ⟨rfl, -⟩ := eq_done_of_breakOff h whole
    exact List.append_nil _
  | cons t ts ih =>
    rw [run] at h
    split at h
    next s' step =>
      have ⟨taken, proper⟩ := consumed_step step proper
      rw [← ih h proper, taken, List.append_assoc, List.singleton_append]
    next => cases (eq_done_of_breakOff h whole).2

/-! ### The tokens of a tree are read -/

/-- The state awaits a value, which will take its place in the given containers. -/
def Awaits (s : Reading) (outer : List Frame) : Prop :=
  ∀ t, t ≠ .closeArray → s.step? t = beginValue? outer t

theorem awaits_value (outer : List Frame) : (value outer).Awaits outer := fun _ _ ↦ rfl

theorem awaits_firstItem (outer : List Frame) : (firstItem outer).Awaits (.array [] :: outer) := by
  intro t other
  cases t <;> first | rfl | contradiction

theorem awaits_nextItem (items : List Node) (outer : List Frame) :
    (nextItem items outer).Awaits (.array items :: outer) := fun _ _ ↦ rfl

theorem run_cons {ts : List Token} (h : s.step? t = some s') : s.run (t :: ts) = s'.run ts := by
  rw [run, h]

/-- The tokens of the value lead to the state in which it has taken its place. -/
def Reads (n : Node) : Prop :=
  ∀ (s : Reading) (outer : List Frame), s.Awaits outer → ∀ ts,
    s.run (n.tokens ++ ts) = (deliver outer n).run ts

/-- Behind an item the others follow, up to the closing bracket. -/
theorem run_items {items : List Node} (h : ∀ n ∈ items, Reads n) (read : List Node)
    (outer : List Frame) (ts : List Token) :
    (itemEnd read outer).run
        ((items.map Node.tokens).flatMap (.comma :: ·) ++ .closeArray :: ts) =
      (deliver outer (.array (read.reverse ++ items))).run ts := by
  induction items generalizing read with
  | nil =>
    rw [List.append_nil]
    exact run_cons rfl
  | cons n items ih =>
    have ⟨first, others⟩ := List.forall_mem_cons.1 h
    rw [List.map_cons, List.flatMap_cons, List.append_assoc, List.cons_append, run_cons rfl,
      first _ _ (awaits_nextItem read outer)]
    show (itemEnd (n :: read) outer).run _ = _
    rw [ih others, List.reverse_cons, List.append_assoc, List.singleton_append]

/-- A key, the colon, and the value of a member. -/
theorem run_member {key : Key} {members : List Member} (h : Reads n)
    (begins : ∀ t, t ≠ .closeObject → s.step? t = beginMember? members outer t)
    (ts : List Token) :
    s.run ((Member.pair key n).tokens ++ ts) =
      (memberEnd (.pair key n :: members) outer).run ts := by
  have named : s.step? (.atom key.atom) = some (colon members key outer) :=
    (begins (.atom key.atom) nofun).trans (by cases key <;> rfl)
  rw [Member.tokens, List.cons_append, List.cons_append, run_cons named, run_cons rfl,
    h _ _ (awaits_value _)]
  rfl

/-- Behind a member the others follow, up to the closing brace. -/
theorem run_members {members : List Member}
    (h : ∀ m ∈ members, ∃ key n, m = .pair key n ∧ Reads n) (read : List Member)
    (outer : List Frame) (ts : List Token) :
    (memberEnd read outer).run
        ((members.map Member.tokens).flatMap (.comma :: ·) ++ .closeObject :: ts) =
      (deliver outer (.object (read.reverse ++ members))).run ts := by
  induction members generalizing read with
  | nil =>
    rw [List.append_nil]
    exact run_cons rfl
  | cons m members ih =>
    have ⟨⟨key, n, same, first⟩, others⟩ := List.forall_mem_cons.1 h
    subst same
    rw [List.map_cons, List.flatMap_cons, List.append_assoc, List.cons_append, run_cons rfl,
      run_member (s := nextKey read outer) first fun _ _ ↦ rfl, ih others, List.reverse_cons,
      List.append_assoc, List.singleton_append]

/-- The tokens of a whole value lead to the state in which it has taken its place. -/
theorem run_tokens (whole : n.Whole) : Reads n := by
  induction n using Node.valueInduction with
  | missing b => exact absurd whole (Node.not_whole_missing b)
  | atom a =>
    intro s outer awaits ts
    exact run_cons ((awaits (.atom a) nofun).trans rfl)
  | array items ih =>
    have reads : ∀ n ∈ items, Reads n := fun n hn ↦ ih n hn (Node.whole_array_iff.1 whole n hn)
    intro s outer awaits ts
    rw [Node.tokens_array, List.cons_append, run_cons ((awaits .openArray nofun).trans rfl)]
    -- the first item is read in another state than the others: the array may be empty
    cases items with
    | nil => exact run_cons rfl
    | cons n items =>
      have ⟨first, others⟩ := List.forall_mem_cons.1 reads
      rw [List.map_cons, joined, List.append_assoc, List.append_assoc,
        first _ _ (awaits_firstItem outer)]
      exact run_items others [n] outer ts
  | object members ih =>
    have reads : ∀ m ∈ members, ∃ key n, m = .pair key n ∧ Reads n := by
      intro m hm
      obtain ⟨key, n, rfl, whole⟩ := Node.whole_object_iff.1 whole m hm
      exact ⟨key, n, rfl, ih key n hm whole⟩
    intro s outer awaits ts
    have opens : Token.openObject ≠ .closeArray := by rintro ⟨⟩
    rw [Node.tokens_object, List.cons_append, run_cons ((awaits .openObject opens).trans rfl)]
    cases members with
    | nil => exact run_cons rfl
    | cons m members =>
      obtain ⟨⟨key, n, rfl, first⟩, others⟩ := List.forall_mem_cons.1 reads
      have begins (t : Token) (other : t ≠ .closeObject) :
          (firstKey outer).step? t = beginMember? [] outer t := by
        cases t <;> first | rfl | contradiction
      rw [List.map_cons, joined, List.append_assoc, List.append_assoc, run_member first begins]
      exact run_members others [.pair key n] outer ts

end Reading

/-! ### Texts -/

/-- A text is a text of a tree exactly if the tree is read off it, whole and with nothing behind
it. -/
theorem Document.read_eq_iff {text : String} {n : Node} :
    Document.read text = ⟨n, false⟩ ∧ n.Whole ↔ n.Written text := by
  constructor
  · rintro ⟨read, whole⟩
    have taken : tokens text = n.tokens := Reading.eq_of_run read whole trivial
    have readable (b : Bool) (d : Defect) : .unreadable b d ∉ scan text.toList := by
      rw [← tokens, taken]
      exact n.unreadable_notMem_tokens b d
    exact ⟨whole, taken ▸ written_of_scan readable⟩
  · rintro ⟨whole, written⟩
    have scanned : tokens text = n.tokens := scan_of_written written n.separated_tokens
    refine ⟨?_, whole⟩
    rw [Document.read, scanned, ← List.append_nil n.tokens,
      Reading.run_tokens whole _ _ (Reading.awaits_value [])]
    rfl

/-- A text has one tree at most. -/
theorem Node.Written.unique {text : String} {m n : Node} (hm : m.Written text)
    (hn : n.Written text) : m = n := by
  have same := (Document.read_eq_iff.2 hm).1.symm.trans (Document.read_eq_iff.2 hn).1
  exact (Document.mk.inj same).1

end FlatDecls.Json
