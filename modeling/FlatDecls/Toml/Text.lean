import FlatDecls.Text.Digit

/-!
# Texts in TOML documents

Blanks, line ends, comments, and the four forms of strings: basic strings with escapes between
double quotes, literal strings without escapes between apostrophes, and a form of each that
spans lines between triple marks. Readers take the characters that are left and give back a
result with what follows it, or nothing if the text breaks the rules.
-/

namespace FlatDecls.Toml

open Text (hexDigit?)

/-! ### Blanks, comments and line ends -/

/-- May this character stand between the parts of a line? -/
def isBlank (c : Char) : Bool := c = ' ' || c = '\t'

/-- What follows the blanks at the front. -/
def skipBlanks (cs : List Char) : List Char := cs.dropWhile isBlank

/-- May this character stand in a comment, or unescaped in a string? Every character may but
the controls; the tab is no control here. -/
def isPlain (c : Char) : Bool := c = '\t' || (0x20 ≤ c.toNat && c.toNat ≠ 0x7f)

/-- What follows the line end at the front, if there is one. -/
def newline? : List Char → Option (List Char)
  | '\n' :: rest => some rest
  | '\r' :: '\n' :: rest => some rest
  | _ => none

/-- What follows the comment at the front, if there is one. -/
def skipComment (cs : List Char) : List Char :=
  match cs with
  | '#' :: rest => rest.dropWhile isPlain
  | _ => cs

/-- What follows a line whose contents have been read: blanks and a comment may stand before
its end, and the text may end instead. -/
def endLine? (cs : List Char) : Option (List Char) :=
  match skipComment (skipBlanks cs) with
  | [] => some []
  | rest => newline? rest

/-- What follows blanks, comments and line ends at the front. A comment ends with its line;
`inComment` says whether one has begun. -/
def skipSpaceFrom (inComment : Bool) (cs : List Char) : List Char :=
  match cs with
  | '\n' :: rest => skipSpaceFrom false rest
  | '\r' :: '\n' :: rest => skipSpaceFrom false rest
  | c :: rest =>
    if inComment then if isPlain c then skipSpaceFrom true rest else cs
    else if isBlank c then skipSpaceFrom false rest
    else if c = '#' then skipSpaceFrom true rest
    else cs
  | [] => []

/-- What follows blanks, comments and line ends at the front. -/
def skipSpace (cs : List Char) : List Char := skipSpaceFrom false cs

/-- A line end takes at least one character. -/
theorem newline?_length {cs rest : List Char} (h : newline? cs = some rest) :
    rest.length < cs.length := by
  unfold newline? at h
  split at h
  · obtain rfl := Option.some.inj h
    simp
  · obtain rfl := Option.some.inj h
    simp only [List.length_cons]
    omega
  · simp at h

theorem skipBlanks_length (cs : List Char) : (skipBlanks cs).length ≤ cs.length :=
  (List.dropWhile_suffix isBlank).length_le

theorem skipComment_length (cs : List Char) : (skipComment cs).length ≤ cs.length := by
  unfold skipComment
  split
  · next rest =>
    have := (List.dropWhile_suffix isPlain (l := rest)).length_le
    simp only [List.length_cons]
    omega
  · exact Nat.le_refl _

/-- Skipping does not lengthen the text. -/
theorem skipSpace_length (cs : List Char) : (skipSpace cs).length ≤ cs.length := by
  unfold skipSpace
  fun_induction skipSpaceFrom false cs <;> simp_all <;> omega

/-- The end of a line takes a character, unless the text ends there. -/
theorem endLine?_length {cs rest : List Char} (h : endLine? cs = some rest) :
    rest.length < cs.length ∨ rest = [] := by
  unfold endLine? at h
  split at h
  · simp_all
  · have := newline?_length h
    have := skipComment_length (skipBlanks cs)
    have := skipBlanks_length cs
    omega

/-! ### Escapes -/

/-- A number of exactly `width` hexadecimal digits, continuing from `n`. -/
def hexNumber? : (width : Nat) → (n : Nat) → List Char → Option (Nat × List Char)
  | 0, n, cs => some (n, cs)
  | width + 1, n, c :: rest => do hexNumber? width (16 * n + (← hexDigit? c)) rest
  | _ + 1, _, [] => none

/-- The character with this number, if there is one. -/
def scalar? (n : Nat) : Option Char :=
  if n < 0xD800 || (0xE000 ≤ n && n < 0x110000) then some (Char.ofNat n) else none

/-- The character with the number that follows in `width` hexadecimal digits. -/
def numbered? (width : Nat) (cs : List Char) : Option (Char × List Char) := do
  let (n, rest) ← hexNumber? width 0 cs
  return (← scalar? n, rest)

/-- The character that an escape stands for, behind its backslash. -/
def escape? : List Char → Option (Char × List Char)
  | '"' :: rest => some ('"', rest)
  | '\\' :: rest => some ('\\', rest)
  | 'b' :: rest => some ('\x08', rest)
  | 'e' :: rest => some ('\x1b', rest)
  | 'f' :: rest => some ('\x0c', rest)
  | 'n' :: rest => some ('\n', rest)
  | 'r' :: rest => some ('\r', rest)
  | 't' :: rest => some ('\t', rest)
  | 'x' :: rest => numbered? 2 rest
  | 'u' :: rest => numbered? 4 rest
  | 'U' :: rest => numbered? 8 rest
  | _ => none

/-- An escape may have no digits left to read, so the text only does not become longer. -/
theorem hexNumber?_length {width n m : Nat} {cs rest : List Char}
    (h : hexNumber? width n cs = some (m, rest)) : rest.length ≤ cs.length := by
  fun_induction hexNumber? width n cs with
  | case1 => simp_all
  | case2 n width c left ih =>
    obtain ⟨d, -, h⟩ := Option.bind_eq_some_iff.1 h
    have := ih d h
    simp
    omega
  | case3 => simp at h

theorem numbered?_length {width : Nat} {c : Char} {cs rest : List Char}
    (h : numbered? width cs = some (c, rest)) : rest.length ≤ cs.length := by
  obtain ⟨⟨n, left⟩, hn, h⟩ := Option.bind_eq_some_iff.1 h
  obtain ⟨d, -, h⟩ := Option.bind_eq_some_iff.1 h
  have := hexNumber?_length hn
  simp_all

/-- Every escape takes at least one character behind the backslash. -/
theorem escape?_length {c : Char} {cs rest : List Char} (h : escape? cs = some (c, rest)) :
    rest.length < cs.length := by
  unfold escape? at h
  split at h
  case h_9 | h_10 | h_11 =>
    have := numbered?_length h
    simp only [List.length_cons]
    omega
  case h_12 => simp at h
  all_goals
    obtain ⟨-, rfl⟩ := by simpa using h
    simp

/-- Changing what was read does not change what is left. -/
theorem left_of_map {r : Option (σ × List Char)} {f : σ → τ} {t : τ} {rest : List Char}
    (h : (do let (s, left) ← r; return (f s, left)) = some (t, rest)) :
    ∃ s, r = some (s, rest) := by
  obtain ⟨⟨s, left⟩, hr, h⟩ := Option.bind_eq_some_iff.1 h
  obtain ⟨-, rfl⟩ := by simpa using h
  exact ⟨s, hr⟩

/-! ### Strings on one line -/

/-- The contents of a basic string whose opening quote has been read. -/
def basic? (cs : List Char) : Option (List Char × List Char) :=
  match cs with
  | [] => none
  | '"' :: rest => some ([], rest)
  | '\\' :: rest =>
    match h : escape? rest with
    | some (c, left) => do
      have := escape?_length h
      let (s, left) ← basic? left
      return (c :: s, left)
    | none => none
  | c :: rest =>
    if isPlain c then do
      let (s, left) ← basic? rest
      return (c :: s, left)
    else none
termination_by cs.length
decreasing_by
  · simp only [List.length_cons]
    omega
  · simp

/-- The contents of a literal string whose opening apostrophe has been read. -/
def literal? : List Char → Option (List Char × List Char)
  | [] => none
  | '\'' :: rest => some ([], rest)
  | c :: rest =>
    if isPlain c then do
      let (s, left) ← literal? rest
      return (c :: s, left)
    else none

/-- A text in double quotes takes at least its closing quote. -/
theorem basic?_length {cs rest s : List Char} (h : basic? cs = some (s, rest)) :
    rest.length < cs.length := by
  fun_induction basic? cs generalizing s rest with
  | case1 => simp at h
  | case2 => simp_all
  | case3 tail c left he hlt ih =>
    obtain ⟨t, ht⟩ := left_of_map h
    have := ih ht
    simp only [List.length_cons]
    omega
  | case4 => simp at h
  | case5 c tail _ _ _ ih =>
    obtain ⟨t, ht⟩ := left_of_map h
    have := ih ht
    simp only [List.length_cons]
    omega
  | case6 => simp at h

/-- A text in single quotes takes at least its closing quote. -/
theorem literal?_length {cs rest s : List Char} (h : literal? cs = some (s, rest)) :
    rest.length < cs.length := by
  fun_induction literal? cs generalizing s rest with
  | case1 => simp at h
  | case2 => simp_all
  | case3 c tail _ _ ih =>
    obtain ⟨t, ht⟩ := left_of_map h
    have := ih ht
    simp only [List.length_cons]
    omega
  | case4 => simp at h

/-! ### Strings on several lines -/

/-- What follows the blanks and line ends at the front. -/
def skipLines : List Char → List Char
  | ' ' :: rest => skipLines rest
  | '\t' :: rest => skipLines rest
  | '\n' :: rest => skipLines rest
  | '\r' :: '\n' :: rest => skipLines rest
  | cs => cs

/-- What follows a backslash that ends its line: all blanks and line ends are left out. -/
def joinLines? (cs : List Char) : Option (List Char) :=
  (newline? (skipBlanks cs)).map skipLines

theorem skipLines_length (cs : List Char) : (skipLines cs).length ≤ cs.length := by
  fun_induction skipLines cs <;> simp_all <;> omega

/-- Joined lines take at least one line end. -/
theorem joinLines?_length {cs rest : List Char} (h : joinLines? cs = some rest) :
    rest.length < cs.length := by
  obtain ⟨left, hn, rfl⟩ := Option.map_eq_some_iff.1 h
  have := newline?_length hn
  have := skipLines_length left
  have := skipBlanks_length cs
  omega

/-- The number of leading characters equal to `mark`. -/
def runLength (mark : Char) (cs : List Char) : Nat :=
  (cs.takeWhile (· == mark)).length

/-- The end of a string of several lines where its mark stands `run` times, at least thrice:
up to two marks before the closing three belong to the contents. -/
def closeRun (mark : Char) (run : Nat) (cs : List Char) : List Char × List Char :=
  let taken := min run 5
  (List.replicate (taken - 3) mark, cs.drop taken)

/-- The contents of a basic string of several lines, behind the opening quotes. -/
def multiBasic? (cs : List Char) : Option (List Char × List Char) :=
  match cs with
  | [] => none
  | '"' :: rest =>
    if 3 ≤ runLength '"' cs then some (closeRun '"' (runLength '"' cs) cs)
    else do
      let (s, left) ← multiBasic? rest
      return ('"' :: s, left)
  | '\\' :: rest =>
    match h : joinLines? rest with
    | some left =>
      have := joinLines?_length h
      multiBasic? left
    | none =>
      match h : escape? rest with
      | some (c, left) => do
        have := escape?_length h
        let (s, left) ← multiBasic? left
        return (c :: s, left)
      | none => none
  | '\n' :: rest => do
    let (s, left) ← multiBasic? rest
    return ('\n' :: s, left)
  | '\r' :: '\n' :: rest => do
    let (s, left) ← multiBasic? rest
    return ('\r' :: '\n' :: s, left)
  | c :: rest =>
    if isPlain c then do
      let (s, left) ← multiBasic? rest
      return (c :: s, left)
    else none
termination_by cs.length
decreasing_by
  all_goals
    simp only [List.length_cons]
    omega

/-- The contents of a literal string of several lines, behind the opening apostrophes. -/
def multiLiteral? (cs : List Char) : Option (List Char × List Char) :=
  match cs with
  | [] => none
  | '\'' :: rest =>
    if 3 ≤ runLength '\'' cs then some (closeRun '\'' (runLength '\'' cs) cs)
    else do
      let (s, left) ← multiLiteral? rest
      return ('\'' :: s, left)
  | '\n' :: rest => do
    let (s, left) ← multiLiteral? rest
    return ('\n' :: s, left)
  | '\r' :: '\n' :: rest => do
    let (s, left) ← multiLiteral? rest
    return ('\r' :: '\n' :: s, left)
  | c :: rest =>
    if isPlain c then do
      let (s, left) ← multiLiteral? rest
      return (c :: s, left)
    else none

/-- A line end right behind the opening marks is left out. -/
def skipFirstLineEnd (cs : List Char) : List Char := (newline? cs).getD cs

theorem closeRun_length (mark : Char) (run : Nat) (cs : List Char) :
    (closeRun mark run cs).2.length ≤ cs.length := by
  simp [closeRun]

/-- The three opening quotes were taken before, so here the text only does not become longer. -/
theorem multiBasic?_length {cs rest s : List Char} (h : multiBasic? cs = some (s, rest)) :
    rest.length ≤ cs.length := by
  fun_induction multiBasic? cs generalizing s rest with
  | case1 => simp at h
  | case2 tail hrun =>
    rw [if_pos hrun] at h
    have := closeRun_length '"' (runLength '"' ('"' :: tail)) ('"' :: tail)
    rwa [Option.some.inj h] at this
  | case3 _ hrun ih =>
    rw [if_neg hrun] at h
    obtain ⟨t, ht⟩ := left_of_map h
    have := ih ht
    simp only [List.length_cons]
    omega
  | case7 _ ih | case9 _ _ _ _ _ _ _ ih =>
    obtain ⟨t, ht⟩ := left_of_map h
    have := ih ht
    simp only [List.length_cons]
    omega
  | case8 _ ih =>
    obtain ⟨t, ht⟩ := left_of_map (f := fun s ↦ '\r' :: '\n' :: s) h
    have := ih ht
    simp only [List.length_cons]
    omega
  | case4 tail left _ hlt ih =>
    have := ih h
    simp only [List.length_cons]
    omega
  | case5 tail _ c left _ hlt ih =>
    obtain ⟨t, ht⟩ := left_of_map h
    have := ih ht
    simp only [List.length_cons]
    omega
  | case6 => simp at h
  | case10 => simp at h

theorem multiLiteral?_length {cs rest s : List Char} (h : multiLiteral? cs = some (s, rest)) :
    rest.length ≤ cs.length := by
  fun_induction multiLiteral? cs generalizing s rest with
  | case1 => simp at h
  | case2 tail hrun =>
    rw [if_pos hrun] at h
    have := closeRun_length '\'' (runLength '\'' ('\'' :: tail)) ('\'' :: tail)
    rwa [Option.some.inj h] at this
  | case3 _ hrun ih =>
    rw [if_neg hrun] at h
    obtain ⟨t, ht⟩ := left_of_map h
    have := ih ht
    simp only [List.length_cons]
    omega
  | case4 _ ih | case6 _ _ _ _ _ _ ih =>
    obtain ⟨t, ht⟩ := left_of_map h
    have := ih ht
    simp only [List.length_cons]
    omega
  | case5 _ ih =>
    obtain ⟨t, ht⟩ := left_of_map (f := fun s ↦ '\r' :: '\n' :: s) h
    have := ih ht
    simp only [List.length_cons]
    omega
  | case7 => simp at h

/-- The contents of a string of any form; `none` if no string stands at the front or it is not
closed. -/
def contents? (cs : List Char) : Option (List Char × List Char) :=
  match cs with
  | '"' :: '"' :: '"' :: rest => multiBasic? (skipFirstLineEnd rest)
  | '\'' :: '\'' :: '\'' :: rest => multiLiteral? (skipFirstLineEnd rest)
  | '"' :: rest => basic? rest
  | '\'' :: rest => literal? rest
  | _ => none

/-- A string of any form. -/
def string? (cs : List Char) : Option (String × List Char) :=
  (contents? cs).map fun (s, rest) ↦ (String.ofList s, rest)

theorem skipFirstLineEnd_length (cs : List Char) : (skipFirstLineEnd cs).length ≤ cs.length := by
  unfold skipFirstLineEnd
  cases h : newline? cs with
  | none => exact Nat.le_refl _
  | some rest => exact Nat.le_of_lt (newline?_length h)

/-- A text takes at least its opening quote, of whatever kind. -/
theorem string?_length {cs rest : List Char} {s : String} (h : string? cs = some (s, rest)) :
    rest.length < cs.length := by
  obtain ⟨⟨t, left⟩, hc, h⟩ := Option.map_eq_some_iff.1 h
  obtain ⟨-, rfl⟩ := by simpa using h
  unfold contents? at hc
  split at hc
  · next tail =>
    have := multiBasic?_length hc
    have := skipFirstLineEnd_length tail
    simp only [List.length_cons]
    omega
  · next tail =>
    have := multiLiteral?_length hc
    have := skipFirstLineEnd_length tail
    simp only [List.length_cons]
    omega
  · have := basic?_length hc
    simp only [List.length_cons]
    omega
  · have := literal?_length hc
    simp only [List.length_cons]
    omega
  · simp at hc

end FlatDecls.Toml
