import FlatDecls.Json.Fault
import FlatDecls.Json.Numeral

/-!
# Tokens of a JSON text

A text is cut into punctuation, literals, numbers and strings; space, tab, line feed and
carriage return between them are skipped. Cutting never fails: where no token can be read the
list ends with `unreadable` and the defect of the text there. A string whose escapes name half
of a surrogate pair alone is a token of its own kind, since it has the form of a string but
stands for no text.
-/

namespace FlatDecls.Json

open Text (isDigit digitValue hexDigit?)

/-- A value without parts. -/
inductive Atom
  | null
  | boolean (b : Bool)
  | number (n : Numeral)
  | string (s : String)
  /-- A string with an unpaired surrogate escape. -/
  | loneSurrogate (f : Fault)
  deriving DecidableEq, Repr

/-- Why no token can be read. A reader that needs the value and one that passes over it do not
always see the same fault: only the first looks at what the escapes of a string stand for, and
only it tells the end of the text from another character where a digit is due. -/
structure Defect where
  needed : Fault
  passed : Fault
  deriving DecidableEq, Repr

/-- The same fault for both readers. -/
def Defect.of (f : Fault) : Defect := ⟨f, f⟩

/-- The smallest parts of a JSON text. -/
inductive Token
  | openArray
  | closeArray
  | openObject
  | closeObject
  | comma
  | colon
  | atom (a : Atom)
  /-- No token can be read here, and nothing behind this place is read. It may still be clear
  that a string begins here. -/
  | unreadable (beginsString : Bool) (d : Defect)
  deriving DecidableEq, Repr

/-- A reading in two steps succeeds only if both steps do. -/
theorem eq_ok_of_bind {ε α β : Type} {x : Except ε α} {f : α → Except ε β} {b : β}
    (h : (x >>= f) = .ok b) : ∃ a, x = .ok a ∧ f a = .ok b := by
  cases x with
  | error e => cases h
  | ok a => exact ⟨a, rfl, h⟩

/-! ### Strings -/

/-- A part of a string: a character, or a code unit from a hexadecimal escape. -/
inductive Piece
  | char (c : Char)
  | unit (n : Nat)
  deriving DecidableEq, Repr

/-- Where the pieces of a string end without a closing quote. -/
inductive StringBreak
  | textEnds
  | controlCharacter
  | unknownEscape
  /-- A hexadecimal escape with something else among its four digits. -/
  | badDigits
  deriving DecidableEq, Repr

namespace Piece

/-- Does this code unit begin a surrogate pair? -/
def isHigh (n : Nat) : Bool := 0xD800 ≤ n && n < 0xDC00

/-- Does this code unit end a surrogate pair? -/
def isLow (n : Nat) : Bool := 0xDC00 ≤ n && n < 0xE000

/-- The character that a pair of surrogate code units stands for. -/
def pair (high low : Nat) : Char :=
  Char.ofNat (0x10000 + (high - 0xD800) * 0x400 + (low - 0xDC00))

/-- The characters of a string, unless a surrogate stands alone. The fault `cut` is for a high
surrogate behind which no piece was read. -/
def join (cut : Fault) : List Piece → Except Fault (List Char)
  | [] => .ok []
  | .char c :: rest => (c :: ·) <$> join cut rest
  | .unit n :: rest =>
    if isHigh n then
      match rest with
      | [] => .error cut
      | .char _ :: _ => .error .cutSurrogate
      | .unit m :: rest =>
        if isLow m then (pair n m :: ·) <$> join cut rest else .error .loneSurrogate
    else if isLow n then .error .loneSurrogate
    else (Char.ofNat n :: ·) <$> join cut rest

end Piece

/-- The number that four hexadecimal digits stand for. -/
def hexUnit? (a b c d : Char) : Option Nat := do
  let a ← hexDigit? a
  let b ← hexDigit? b
  let c ← hexDigit? c
  let d ← hexDigit? d
  return ((a * 16 + b) * 16 + c) * 16 + d

/-- The character that an escape of one letter stands for. -/
def shortEscape? (c : Char) : Option Char :=
  match c with
  | '"' => some '"'
  | '\\' => some '\\'
  | '/' => some '/'
  | 'b' => some '\x08'
  | 'f' => some '\x0c'
  | 'n' => some '\n'
  | 'r' => some '\r'
  | 't' => some '\t'
  | _ => none

namespace StringBreak

/-- The break at a hexadecimal escape that fewer than four characters follow: its digits are
taken as four bytes, so it may have enough of them. -/
def ofEscape (rest : List Char) : StringBreak :=
  if (String.ofList rest).utf8ByteSize < 4 then textEnds else badDigits

/-- The fault for a reader that does not look at what escapes stand for. -/
def fault : StringBreak → Fault
  | textEnds => .endInString
  | controlCharacter => .controlCharacter
  | unknownEscape => .invalidEscape
  | badDigits => .invalidEscape

/-- The fault of a high surrogate right before the break. -/
def cut : StringBreak → Fault
  | textEnds => .endInString
  | controlCharacter => .cutSurrogate
  | unknownEscape => .cutSurrogate
  | badDigits => .invalidEscape

/-- The defect of a string that breaks off behind some pieces. -/
def defect (ps : List Piece) (b : StringBreak) : Defect :=
  match Piece.join b.cut ps with
  | .ok _ => .of b.fault
  | .error f => ⟨f, b.fault⟩

end StringBreak

/-- The pieces of a string, and what follows the closing quote. Characters below the space
must be escaped. -/
def scanPieces : List Char → List Piece × Except StringBreak (List Char)
  | [] => ([], .error .textEnds)
  | '"' :: rest => ([], .ok rest)
  | ['\\'] => ([], .error .textEnds)
  | '\\' :: 'u' :: a :: b :: c :: d :: rest =>
    match hexUnit? a b c d with
    | none => ([], .error .badDigits)
    | some n =>
      let (ps, after) := scanPieces rest
      (.unit n :: ps, after)
  | '\\' :: 'u' :: rest => ([], .error (.ofEscape rest))
  | '\\' :: c :: rest =>
    match shortEscape? c with
    | none => ([], .error .unknownEscape)
    | some c =>
      let (ps, after) := scanPieces rest
      (.char c :: ps, after)
  | c :: rest =>
    if c.toNat < 0x20 then ([], .error .controlCharacter)
    else
      let (ps, after) := scanPieces rest
      (.char c :: ps, after)

/-- The closing quote at least is taken. -/
theorem scanPieces_length {cs rest : List Char}
    (h : (scanPieces cs).2 = .ok rest) : rest.length < cs.length := by
  fun_induction scanPieces cs with
  | case1 => simp at h
  | case2 left =>
    obtain rfl := by simpa using h
    simp
  | case3 => simp at h
  | case4 => simp at h
  | case5 a b c d left n hn ps after hs ih =>
    have := ih (by simpa [hs] using h)
    simp only [List.length_cons]
    omega
  | case6 => simp at h
  | case7 => simp at h
  | case8 c left _ _ e he ps after hs ih =>
    have := ih (by simpa [hs] using h)
    simp only [List.length_cons]
    omega
  | case9 => simp at h
  | case10 c left _ _ _ _ _ hc ps after hs ih =>
    have := ih (by simpa [hs] using h)
    simp only [List.length_cons]
    omega

/-- A string whose opening quote has been read. -/
def scanString (cs : List Char) : Except Defect (Atom × List Char) :=
  match scanPieces cs with
  | (ps, .error b) => .error (b.defect ps)
  | (ps, .ok rest) =>
    match Piece.join .cutSurrogate ps with
    | .ok s => .ok (.string (String.ofList s), rest)
    | .error f => .ok (.loneSurrogate f, rest)

/-- A string takes at least its closing quote. -/
theorem scanString_length {cs rest : List Char} {a : Atom}
    (h : scanString cs = .ok (a, rest)) : rest.length < cs.length := by
  unfold scanString at h
  split at h
  · simp at h
  · next ps left hs =>
    have hl := scanPieces_length (congrArg Prod.snd hs)
    split at h
    · obtain ⟨-, rfl⟩ := by simpa using h
      exact hl
    · obtain ⟨-, rfl⟩ := by simpa using h
      exact hl

/-! ### Numbers -/

/-- The leading decimal digits, and what follows them. -/
def scanDigits (cs : List Char) : List Nat × List Char :=
  ((cs.takeWhile isDigit).map digitValue, cs.dropWhile isDigit)

/-- The defect of a text that goes on with something else than a digit that is due. -/
def noDigit : List Char → Defect
  | [] => ⟨.endInValue, .invalidNumber⟩
  | _ :: _ => .of .invalidNumber

/-- Leading decimal digits, of which there must be one. -/
def scanSomeDigits (cs : List Char) : Except Defect (List Nat × List Char) :=
  match scanDigits cs with
  | ([], _) => .error (noDigit cs)
  | found => .ok found

/-- At least one digit is taken. -/
theorem scanSomeDigits_length {cs rest : List Char} {ds : List Nat}
    (h : scanSomeDigits cs = .ok (ds, rest)) : rest.length < cs.length := by
  cases cs with
  | nil => simp [scanSomeDigits, scanDigits] at h
  | cons c cs =>
    by_cases hc : isDigit c
    · have := (List.dropWhile_suffix isDigit (l := cs)).length_le
      obtain ⟨-, rfl⟩ := by simpa [scanSomeDigits, scanDigits, hc] using h
      simp only [List.length_cons]
      omega
    · simp [scanSomeDigits, scanDigits, hc] at h

/-- A fraction if a point follows: then at least one digit must follow the point. -/
def scanFraction (cs : List Char) : Except Defect (List Nat × List Char) :=
  match cs with
  | '.' :: rest => scanSomeDigits rest
  | _ => .ok ([], cs)

theorem scanFraction_length {cs rest : List Char} {ds : List Nat}
    (h : scanFraction cs = .ok (ds, rest)) : rest.length ≤ cs.length := by
  unfold scanFraction at h
  split at h
  · have := scanSomeDigits_length h
    simp only [List.length_cons]
    omega
  · obtain ⟨-, rfl⟩ := by simpa using h
    exact Nat.le_refl _

/-- The sign of an exponent (`true` for minus), and what follows it. -/
def scanSign : List Char → Bool × List Char
  | '+' :: rest => (false, rest)
  | '-' :: rest => (true, rest)
  | cs => (false, cs)

theorem scanSign_length (cs : List Char) : (scanSign cs).2.length ≤ cs.length := by
  unfold scanSign
  split <;> simp

/-- The digits of an exponent, after its letter and an optional sign. -/
def scanExponentDigits (cs : List Char) : Except Defect ((Bool × List Nat) × List Char) := do
  let (ds, rest) ← scanSomeDigits (scanSign cs).2
  return (((scanSign cs).1, ds), rest)

theorem scanExponentDigits_length {cs rest : List Char} {e : Bool × List Nat}
    (h : scanExponentDigits cs = .ok (e, rest)) : rest.length ≤ cs.length := by
  obtain ⟨⟨ds, left⟩, hs, h⟩ := eq_ok_of_bind h
  have := scanSomeDigits_length hs
  have := scanSign_length cs
  obtain ⟨-, rfl⟩ := Prod.mk.inj (Except.ok.inj h)
  omega

/-- An exponent if its letter follows. -/
def scanExponent (cs : List Char) :
    Except Defect (Option (Bool × List Nat) × List Char) :=
  match cs with
  | 'e' :: rest | 'E' :: rest => do
    let (e, rest) ← scanExponentDigits rest
    return (some e, rest)
  | _ => .ok (none, cs)

/-- An exponent may be absent, and then nothing is taken. -/
theorem scanExponent_length {cs rest : List Char} {e : Option (Bool × List Nat)}
    (h : scanExponent cs = .ok (e, rest)) : rest.length ≤ cs.length := by
  unfold scanExponent at h
  split at h
  · obtain ⟨⟨d, left⟩, hs, h⟩ := eq_ok_of_bind h
    have := scanExponentDigits_length hs
    obtain ⟨-, rfl⟩ := Prod.mk.inj (Except.ok.inj h)
    simp only [List.length_cons]
    omega
  · obtain ⟨⟨d, left⟩, hs, h⟩ := eq_ok_of_bind h
    have := scanExponentDigits_length hs
    obtain ⟨-, rfl⟩ := Prod.mk.inj (Except.ok.inj h)
    simp only [List.length_cons]
    omega
  · obtain ⟨-, rfl⟩ := by simpa using h
    exact Nat.le_refl _

/-- The digits before the point: a leading zero stands alone. -/
def scanWhole (cs : List Char) : Except Defect (List Nat × List Char) :=
  match scanSomeDigits cs with
  | .ok (0 :: _ :: _, _) => .error (.of .invalidNumber)
  | found => found

theorem scanWhole_length {cs rest : List Char} {ds : List Nat}
    (h : scanWhole cs = .ok (ds, rest)) : rest.length < cs.length := by
  unfold scanWhole at h
  split at h
  · simp at h
  · exact scanSomeDigits_length h

/-- A number whose sign has been read. -/
def scanNumber (negative : Bool) (cs : List Char) : Except Defect (Atom × List Char) := do
  let (whole, cs) ← scanWhole cs
  let (fraction, cs) ← scanFraction cs
  let (exponent, cs) ← scanExponent cs
  return (.number { negative, whole, fraction, exponent }, cs)

/-- A number has digits, so something is taken. -/
theorem scanNumber_length {negative : Bool} {cs rest : List Char} {a : Atom}
    (h : scanNumber negative cs = .ok (a, rest)) : rest.length < cs.length := by
  obtain ⟨⟨whole, cs₁⟩, hw, h⟩ := eq_ok_of_bind h
  obtain ⟨⟨fraction, cs₂⟩, hf, h⟩ := eq_ok_of_bind h
  obtain ⟨⟨exponent, cs₃⟩, he, h⟩ := eq_ok_of_bind h
  have := scanWhole_length hw
  have := scanFraction_length hf
  have := scanExponent_length he
  obtain ⟨-, rfl⟩ := Prod.mk.inj (Except.ok.inj h)
  omega

/-! ### Tokens -/

/-- May this character stand between tokens? -/
def isBlank (c : Char) : Bool :=
  c = ' ' || c = '\t' || c = '\n' || c = '\r'

/-- A literal of which `word` is still due. -/
def scanWord (a : Atom) (word cs : List Char) : Except Defect (Atom × List Char) :=
  match word, cs with
  | [], cs => .ok (a, cs)
  | _ :: _, [] => .error (.of .endInValue)
  | w :: word, c :: cs => if c = w then scanWord a word cs else .error (.of .expectedWord)

theorem scanWord_length {a b : Atom} {word cs rest : List Char}
    (h : scanWord a word cs = .ok (b, rest)) : rest.length ≤ cs.length := by
  fun_induction scanWord a word cs with
  | case1 =>
    obtain ⟨-, rfl⟩ := by simpa using h
    exact Nat.le_refl _
  | case2 => simp at h
  | case3 w word cs ih => exact Nat.le_succ_of_le (ih h)
  | case4 => simp at h

/-- The value without parts that begins with the first of these characters, and what follows
it. -/
def scanAtom (c : Char) (rest : List Char) : Except Defect (Atom × List Char) :=
  if c = 'n' then scanWord .null ['u', 'l', 'l'] rest
  else if c = 't' then scanWord (.boolean true) ['r', 'u', 'e'] rest
  else if c = 'f' then scanWord (.boolean false) ['a', 'l', 's', 'e'] rest
  else if c = '"' then scanString rest
  else if c = '-' then scanNumber true rest
  else if isDigit c then scanNumber false (c :: rest)
  else .error (.of .expectedValue)

/-- Behind the character that it begins with, an atom may have nothing left to take. -/
theorem scanAtom_length {c : Char} {cs rest : List Char} {a : Atom}
    (h : scanAtom c cs = .ok (a, rest)) : rest.length ≤ cs.length := by
  unfold scanAtom at h
  split at h
  · exact scanWord_length h
  split at h
  · exact scanWord_length h
  split at h
  · exact scanWord_length h
  split at h
  · exact Nat.le_of_lt (scanString_length h)
  split at h
  · exact Nat.le_of_lt (scanNumber_length h)
  split at h
  · exact Nat.le_of_lt_succ (scanNumber_length h)
  · simp at h

/-- The token that is a single character. -/
def punctuation? (c : Char) : Option Token :=
  match c with
  | '[' => some .openArray
  | ']' => some .closeArray
  | '\x7b' => some .openObject
  | '\x7d' => some .closeObject
  | ',' => some .comma
  | ':' => some .colon
  | _ => none

/-- All tokens of a text, up to its end or the first place where none can be read. -/
def scan (cs : List Char) : List Token :=
  match cs with
  | [] => []
  | c :: rest =>
    if isBlank c then scan rest
    else
      match punctuation? c with
      | some t => t :: scan rest
      | none =>
        match h : scanAtom c rest with
        | .error d => [.unreadable (c = '"') d]
        | .ok (a, left) =>
          have := scanAtom_length h
          .atom a :: scan left
termination_by cs.length
decreasing_by
  · simp
  · simp
  · simp only [List.length_cons]
    omega

/-- All tokens of a text. -/
def tokens (s : String) : List Token := scan s.toList

end FlatDecls.Json
