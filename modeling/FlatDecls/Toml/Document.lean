import FlatDecls.Toml.Scalar
import FlatDecls.Toml.Table
import FlatDecls.Toml.Text
import FlatDecls.Toml.Validity

/-!
# TOML documents

A document is a list of statements, one on a line: an assignment to a possibly dotted key, or
the header of a table. Reading goes in three steps: from the text to its statements, from the
statements to the table that they build, and from there to the check of its values. Arrays and
inline tables may be nested at most `nestingLimit` deep, and both may span lines and end with a
comma. The parts of a key name tables inside each other, so a key has no more parts than that.
-/

namespace FlatDecls.Toml

open Text (isDigit)

/-- The number of arrays and inline tables that may be open at once, and of the parts that a
key may have. -/
def nestingLimit : Nat := 80

/-! ### Keys -/

/-- Can this character be part of a key without quotes? -/
def isBareKeyChar (c : Char) : Bool :=
  isDigit c || ('a' ≤ c && c ≤ 'z') || ('A' ≤ c && c ≤ 'Z') || c = '_' || c = '-'

/-- One part of a key: a bare word, or a string on one line. -/
def keyPart? (cs : List Char) : Option (String × List Char) :=
  match cs with
  | '"' :: rest => (basic? rest).map fun (s, rest) ↦ (String.ofList s, rest)
  | '\'' :: rest => (literal? rest).map fun (s, rest) ↦ (String.ofList s, rest)
  | _ =>
    match cs.takeWhile isBareKeyChar with
    | [] => none
    | word => some (String.ofList word, cs.dropWhile isBareKeyChar)

/-- A part of a key takes at least one character. -/
theorem keyPart?_length {cs rest : List Char} {part : String}
    (h : keyPart? cs = some (part, rest)) : rest.length < cs.length := by
  unfold keyPart? at h
  split at h
  · obtain ⟨⟨s, left⟩, hs, h⟩ := Option.map_eq_some_iff.1 h
    have := basic?_length hs
    obtain ⟨-, rfl⟩ := by simpa using h
    simp only [List.length_cons]
    omega
  · obtain ⟨⟨s, left⟩, hs, h⟩ := Option.map_eq_some_iff.1 h
    have := literal?_length hs
    obtain ⟨-, rfl⟩ := by simpa using h
    simp only [List.length_cons]
    omega
  · split at h
    · simp at h
    · next word hword hne =>
      obtain ⟨-, rfl⟩ := by simpa using h
      have := congrArg List.length (List.takeWhile_append_dropWhile (p := isBareKeyChar) (l := cs))
      have : 0 < (cs.takeWhile isBareKeyChar).length := List.length_pos_iff.2 hne
      simp only [List.length_append] at *
      omega

/-- A key as its path and last part. -/
structure DottedKey where
  path : List String
  last : String
  deriving DecidableEq, Repr

/-- A key of one or more parts with dots between them; `path` holds the parts before, in
reverse. Blanks may stand around the dots and behind the key. -/
def keyFrom? (path : List String) (cs : List Char) : Option (DottedKey × List Char) :=
  match h : keyPart? cs with
  | none => none
  | some (part, rest) =>
    match hb : skipBlanks rest with
    | '.' :: left =>
      have hlt : (skipBlanks left).length < cs.length := by
        have := keyPart?_length h
        have := skipBlanks_length rest
        have := skipBlanks_length left
        rw [hb, List.length_cons] at *
        omega
      keyFrom? (part :: path) (skipBlanks left)
    | left => some (⟨path.reverse, part⟩, left)
termination_by cs.length

theorem keyFrom?_length {path : List String} {cs rest : List Char} {key : DottedKey}
    (h : keyFrom? path cs = some (key, rest)) : rest.length < cs.length := by
  fun_induction keyFrom? path cs with
  | case1 => simp at h
  | case2 path cs part rest hpart left hdot hlt ih =>
    have := ih h
    omega
  | case3 path cs part left hpart hdot =>
    have := keyPart?_length hpart
    have := skipBlanks_length left
    obtain ⟨-, rfl⟩ := by simpa using h
    omega

/-- A key at the front. -/
def key? (cs : List Char) : Option (DottedKey × List Char) :=
  (keyFrom? [] cs).filter fun (key, _) ↦ key.path.length < nestingLimit

theorem key?_length {cs rest : List Char} {key : DottedKey}
    (h : key? cs = some (key, rest)) : rest.length < cs.length :=
  keyFrom?_length (Option.filter_eq_some_iff.1 h).1

/-! ### Values -/

/-- A reader of what stands at the front of a text. It leaves no more than it was given. -/
structure Reader (α : Type) where
  read : List Char → Option (α × List Char)
  length_le {cs rest : List Char} {a : α} :
    read cs = some (a, rest) → rest.length ≤ cs.length

/-- The parts of an array or inline table up to its closing mark, with commas between them.
Blanks, comments and line ends may stand around each part, and a comma behind the last. -/
def parts? (close : Char) (part : Reader α) (cs : List Char) :
    Option (List α × List Char) :=
  match hfront : skipSpace cs with
  | [] => none
  | c :: rest =>
    if c = close then some ([], rest)
    else
      match hpart : part.read (c :: rest) with
      | none => none
      | some (a, left) =>
        match hback : skipSpace left with
        | ',' :: more =>
          have hlt : more.length < cs.length := by
            have hcs := skipSpace_length cs
            have hle := part.length_le hpart
            have hleft := skipSpace_length left
            rw [hfront] at hcs
            rw [hback] at hleft
            simp only [List.length_cons] at *
            omega
          do
            let (as, tail) ← parts? close part more
            return (a :: as, tail)
        | d :: more => if d = close then some ([a], more) else none
        | [] => none
termination_by cs.length

theorem parts?_length {close : Char} {part : Reader α} {cs rest : List Char} {as : List α}
    (h : parts? close part cs = some (as, rest)) : rest.length ≤ cs.length := by
  fun_induction parts? close part cs generalizing as rest with
  | case1 => simp at h
  | case2 cs tail hfront =>
    have hcs := skipSpace_length cs
    obtain ⟨-, rfl⟩ := by simpa using h
    rw [hfront, List.length_cons] at hcs
    omega
  | case3 => simp at h
  | case4 cs c tail hfront _ a left hpart more hback hlt ih =>
    obtain ⟨as, has⟩ := left_of_map h
    have := ih has
    omega
  | case5 cs c tail hfront _ a left hpart more _ hback =>
    have hcs := skipSpace_length cs
    have hle := part.length_le hpart
    have hleft := skipSpace_length left
    obtain ⟨-, rfl⟩ := by simpa using h
    rw [hfront] at hcs
    rw [hback, List.length_cons] at hleft
    omega
  | case6 => simp at h
  | case7 => simp at h

/-- An assignment: a key, an equals sign and a value. What may stand around the sign is
skipped by `skip`: on a line of its own blanks, in an inline table also comments and line
ends. -/
def assignment? (skip : List Char → List Char) (value : Reader Value) (cs : List Char) :
    Option ((DottedKey × Value) × List Char) := do
  let (key, rest) ← key? cs
  let '=' :: rest := skip rest | none
  let (v, rest) ← value.read (skip rest)
  return ((key, v), rest)

theorem assignment?_length {skip : List Char → List Char} {value : Reader Value}
    {cs rest : List Char} {a : DottedKey × Value}
    (hskip : ∀ cs, (skip cs).length ≤ cs.length)
    (h : assignment? skip value cs = some (a, rest)) : rest.length ≤ cs.length := by
  obtain ⟨⟨key, left⟩, hkey, h⟩ := Option.bind_eq_some_iff.1 h
  have hlt := key?_length hkey
  have hback := hskip left
  rcases hs : skip left with _ | ⟨c, more⟩
  · simp [hs] at h
  · simp only [hs, List.length_cons] at h hback
    split at h
    · next tail heq =>
      obtain ⟨-, rfl⟩ := List.cons.inj heq
      obtain ⟨⟨v, last⟩, hv, h⟩ := Option.bind_eq_some_iff.1 h
      have hle := value.length_le hv
      have hmore := hskip more
      obtain ⟨-, rfl⟩ := by simpa using h
      omega
    · simp at h

/-- The assignments of an inline table, whose values are read by `value`. -/
def Reader.assignment (value : Reader Value) : Reader (DottedKey × Value) :=
  ⟨assignment? skipSpace value, assignment?_length skipSpace_length⟩

/-- The table of the assignments in an inline table. -/
def inlineTable? (assignments : List (DottedKey × Value)) : Option Value := do
  let t ← assignments.foldlM (fun t (k, v) ↦ t.assign k.path k.last v) (Table.empty .header)
  return .table t.toEntries

/-- A value at the front, where `inner?` reads the values in an array or inline table; without
it neither may be opened. -/
def valueFrom? (inner? : Option (Reader Value)) (cs : List Char) :
    Option (Value × List Char) :=
  match cs with
  | '[' :: rest => do
    let (vs, rest) ← parts? ']' (← inner?) rest
    return (.array vs, rest)
  | '\x7b' :: rest => do
    let (assignments, rest) ← parts? '\x7d' (← inner?).assignment rest
    return (← inlineTable? assignments, rest)
  | '"' :: _ | '\'' :: _ => (string? cs).map fun (s, rest) ↦ (.string s, rest)
  | _ => scalar cs

theorem valueFrom?_length {inner? : Option (Reader Value)} {cs rest : List Char} {v : Value}
    (h : valueFrom? inner? cs = some (v, rest)) : rest.length ≤ cs.length := by
  unfold valueFrom? at h
  split at h
  · obtain ⟨inner, -, h⟩ := Option.bind_eq_some_iff.1 h
    obtain ⟨vs, hvs⟩ := left_of_map h
    exact Nat.le_succ_of_le (parts?_length hvs)
  · obtain ⟨inner, -, h⟩ := Option.bind_eq_some_iff.1 h
    obtain ⟨⟨assignments, left⟩, hparts, h⟩ := Option.bind_eq_some_iff.1 h
    obtain ⟨t, -, h⟩ := Option.bind_eq_some_iff.1 h
    obtain ⟨-, rfl⟩ := by simpa using h
    exact Nat.le_succ_of_le (parts?_length hparts)
  · obtain ⟨⟨s, left⟩, hs, h⟩ := Option.map_eq_some_iff.1 h
    obtain ⟨-, rfl⟩ := by simpa using h
    exact Nat.le_of_lt (string?_length hs)
  · obtain ⟨⟨s, left⟩, hs, h⟩ := Option.map_eq_some_iff.1 h
    obtain ⟨-, rfl⟩ := by simpa using h
    exact Nat.le_of_lt (string?_length hs)
  · exact scalar_length h

/-- The reader of values in which `depth` containers may be opened. -/
def Reader.value : (depth : Nat) → Reader Value
  | 0 => ⟨valueFrom? none, valueFrom?_length⟩
  | depth + 1 => ⟨valueFrom? (some (value depth)), valueFrom?_length⟩

/-! ### Statements -/

/-- One line of a document that says something. -/
inductive Statement
  | assign (key : DottedKey) (v : Value)
  | table (key : DottedKey)
  | element (key : DottedKey)

/-- The statement at the front; the rest of its line is left. -/
def statement? (cs : List Char) : Option (Statement × List Char) :=
  match cs with
  | '[' :: '[' :: rest => do
    let (key, rest) ← key? (skipBlanks rest)
    let ']' :: ']' :: rest := rest | none
    return (.element key, rest)
  | '[' :: rest => do
    let (key, rest) ← key? (skipBlanks rest)
    let ']' :: rest := rest | none
    return (.table key, rest)
  | _ => do
    let ((key, v), rest) ← assignment? skipBlanks (.value nestingLimit) cs
    return (.assign key v, rest)

theorem statement?_length {cs rest : List Char} {s : Statement}
    (h : statement? cs = some (s, rest)) : rest.length ≤ cs.length := by
  unfold statement? at h
  split at h
  · next front =>
    obtain ⟨⟨key, left⟩, hkey, h⟩ := Option.bind_eq_some_iff.1 h
    have hlt := key?_length hkey
    have hfront := skipBlanks_length front
    dsimp only at h
    split at h
    · obtain ⟨-, rfl⟩ := by simpa using h
      simp only [List.length_cons] at *
      omega
    · simp at h
  · next front _ =>
    obtain ⟨⟨key, left⟩, hkey, h⟩ := Option.bind_eq_some_iff.1 h
    have hlt := key?_length hkey
    have hfront := skipBlanks_length front
    dsimp only at h
    split at h
    · obtain ⟨-, rfl⟩ := by simpa using h
      simp only [List.length_cons] at *
      omega
    · simp at h
  · obtain ⟨⟨⟨key, v⟩, left⟩, ha, h⟩ := Option.bind_eq_some_iff.1 h
    obtain ⟨-, rfl⟩ := by simpa using h
    exact assignment?_length skipBlanks_length ha

/-- All statements of a text. -/
def statements? (cs : List Char) : Option (List Statement) :=
  match hfront : skipSpace cs with
  | [] => some []
  | c :: front =>
    match hs : statement? (c :: front) with
    | none => none
    | some (s, rest) =>
      match hend : endLine? rest with
      | none => none
      | some left =>
        have hlt : left.length < cs.length := by
          have hcs := skipSpace_length cs
          have hle := statement?_length hs
          rw [hfront] at hcs
          simp only [List.length_cons] at *
          rcases endLine?_length hend with h | rfl
          · omega
          · simp only [List.length_nil]
            omega
        (statements? left).map (s :: ·)
termination_by cs.length

/-! ### Documents -/

/-- The document so far: its table, and the path of the table that assignments go to. -/
structure Draft where
  root : Table := .empty .header
  current : List String := []

namespace Draft

/-- The draft after one more statement. -/
def step (d : Draft) : Statement → Option Draft
  | .assign key v => do
    let root ← d.root.modifyAt false d.current (·.assign key.path key.last v)
    return { d with root }
  | .table key => do
    let root ← d.root.modifyAt false key.path (·.openTable key.last)
    return ⟨root, key.path ++ [key.last]⟩
  | .element key => do
    let root ← d.root.modifyAt false key.path (·.openElement key.last)
    return ⟨root, key.path ++ [key.last]⟩

end Draft

/-- A byte order mark may stand before the first line. -/
def skipMark : List Char → List Char
  | '\ufeff' :: rest => rest
  | cs => cs

/-- The top-level keys of a document with their values, all of which must be valid. -/
def read? (text : String) : Option (List (String × Value)) := do
  let statements ← statements? (skipMark text.toList)
  let draft ← statements.foldlM Draft.step {}
  let entries := draft.root.toEntries
  if entriesValid entries then some entries else none

end FlatDecls.Toml
