import FlatDecls.Text.Lines

/-!
# Paths

A path is kept as it was written: it is shown in messages and joined to other paths without
being normalised. What it means is decided by its segments, the pieces between slashes. Empty
segments and single dots change nothing; they are passed over when the parent of a path is
taken, which only looks at the text. A parent is shorter than its child (`length_parent`), so
taking parents comes to an end.
-/

namespace FlatDecls

/-- A path as it was written. -/
structure Path where
  text : String
  deriving DecidableEq, Repr

namespace Path

/-- The pieces of a character list between slashes: one more than there are slashes. -/
def splitSlash : List Char → List (List Char)
  | [] => [[]]
  | c :: rest => if c = '/' then [] :: splitSlash rest else Text.extendFirst c (splitSlash rest)

/-- Pieces with slashes between them. -/
def joinSlash (pieces : List (List Char)) : List Char := List.intercalate ['/'] pieces

/-- The pieces of the path between slashes. -/
def segments (p : Path) : List String := (splitSlash p.text.toList).map String.ofList

/-- Does the path begin at the root? -/
def isAbsolute (p : Path) : Bool := p.text.toList.head? == some '/'

/-- Is this the empty path? -/
def isEmpty (p : Path) : Bool := p.text.isEmpty

/-- One path seen from another. An absolute path does not depend on where it is seen from. -/
def join (p q : Path) : Path :=
  if q.isAbsolute then q
  else if p.isEmpty || p.text.toList.getLast? == some '/' then ⟨p.text ++ q.text⟩
  else ⟨p.text ++ "/" ++ q.text⟩

/-- The part of a path that taking parents leaves alone until nothing else is left: the root,
or a dot in front. -/
def splitHead : List Char → List Char × List Char
  | '/' :: rest => (['/'], rest)
  | ['.'] => (['.'], [])
  | '.' :: '/' :: rest => (['.'], '/' :: rest)
  | cs => ([], cs)

/-- Pieces that change nothing. -/
def isIdle (piece : List Char) : Bool := piece == [] || piece == ['.']

/-- The pieces up to the last one that changes something. -/
def dropIdle (pieces : List (List Char)) : List (List Char) :=
  (pieces.reverse.dropWhile isIdle).reverse

/-- The path without its last segment. The root and the empty path have no parent. -/
def parent (p : Path) : Option Path :=
  let (head, body) := splitHead p.text.toList
  match dropIdle (splitSlash body) with
  | [] => if head = ['.'] then some ⟨""⟩ else none
  | pieces => some ⟨String.ofList (head ++ joinSlash (dropIdle pieces.dropLast))⟩

/-! ### Parents are shorter -/

theorem splitSlash_ne_nil (cs : List Char) : splitSlash cs ≠ [] := by
  fun_cases splitSlash cs with
  | case1 => simp
  | case2 rest => simp
  | case3 c rest _ => cases splitSlash rest <;> simp [Text.extendFirst]

/-- Cutting and joining gives the same characters. -/
theorem joinSlash_splitSlash (cs : List Char) : joinSlash (splitSlash cs) = cs := by
  induction cs with
  | nil => rfl
  | cons c rest ih =>
    obtain ⟨piece, pieces, hs⟩ := List.exists_cons_of_ne_nil (splitSlash_ne_nil rest)
    rw [hs] at ih
    rw [splitSlash, hs]
    split
    · next hc => simpa [joinSlash, List.intercalate_cons_cons, hc] using ih
    · cases pieces <;>
        simpa [joinSlash, Text.extendFirst, List.intercalate_cons_cons] using ih

/-- Joined pieces are at least as long as the pieces joined in two parts. -/
theorem length_joinSlash_append (xs ys : List (List Char)) :
    (joinSlash xs).length + (joinSlash ys).length ≤ (joinSlash (xs ++ ys)).length := by
  induction xs with
  | nil => simp [joinSlash]
  | cons x xs ih =>
    cases xs with
    | nil => cases ys <;> simp [joinSlash, List.intercalate_cons_cons]
    | cons x' xs =>
      simp only [joinSlash, List.cons_append, List.intercalate_cons_cons,
        List.length_append] at ih ⊢
      omega

theorem length_joinSlash_le {xs ys : List (List Char)} (h : xs <+: ys) :
    (joinSlash xs).length ≤ (joinSlash ys).length := by
  obtain ⟨zs, rfl⟩ := h
  have := length_joinSlash_append xs zs
  omega

theorem isPrefix_dropIdle (pieces : List (List Char)) : dropIdle pieces <+: pieces := by
  have := List.reverse_prefix.2 (List.dropWhile_suffix isIdle (l := pieces.reverse))
  rwa [List.reverse_reverse] at this

/-- What is left without idle pieces at its end does not end in one. -/
theorem isIdle_getLast_dropIdle {pieces : List (List Char)} (h : dropIdle pieces ≠ []) :
    isIdle ((dropIdle pieces).getLast h) = false := by
  have hne : pieces.reverse.dropWhile isIdle ≠ [] := by simpa [dropIdle] using h
  have := List.head?_dropWhile_not isIdle pieces.reverse
  rw [List.head?_eq_some_head hne] at this
  simpa [dropIdle] using this

/-- Taking the last piece away that is not idle makes the joined pieces shorter. -/
theorem length_joinSlash_dropLast {pieces : List (List Char)} (h : dropIdle pieces ≠ []) :
    (joinSlash (dropIdle pieces).dropLast).length < (joinSlash pieces).length := by
  have hlast : 0 < ((dropIdle pieces).getLast h).length := by
    have := isIdle_getLast_dropIdle h
    cases hl : (dropIdle pieces).getLast h with
    | nil => simp [hl, isIdle] at this
    | cons c cs => simp
  have hsplit := length_joinSlash_append (dropIdle pieces).dropLast [(dropIdle pieces).getLast h]
  rw [List.dropLast_concat_getLast h] at hsplit
  have := length_joinSlash_le (isPrefix_dropIdle pieces)
  simp only [joinSlash, List.intercalate_singleton] at *
  omega

theorem splitHead_append (cs : List Char) : (splitHead cs).1 ++ (splitHead cs).2 = cs := by
  fun_cases splitHead cs <;> rfl

/-- A parent is shorter than its child. -/
theorem length_parent {p q : Path} (h : p.parent = some q) :
    q.text.toList.length < p.text.toList.length := by
  have hcs := splitHead_append p.text.toList
  simp only [parent] at h
  split at h
  · split at h
    · next hhead =>
      obtain rfl := Option.some.inj h
      rw [← hcs, hhead]
      simp
    · simp at h
  · next pieces hne =>
    obtain rfl := Option.some.inj h
    have := length_joinSlash_dropLast hne
    have := length_joinSlash_le
      (isPrefix_dropIdle (dropIdle (splitSlash (splitHead p.text.toList).2)).dropLast)
    have hjoin := congrArg List.length (joinSlash_splitSlash (splitHead p.text.toList).2)
    have := congrArg List.length hcs
    simp only [String.toList_ofList, List.length_append] at *
    omega

/-- The path, its parent, the parent of that, and so on to the last. -/
def ancestors (p : Path) : List Path :=
  match h : p.parent with
  | none => [p]
  | some q =>
    have := length_parent h
    p :: ancestors q
termination_by p.text.toList.length

end Path

end FlatDecls
