import Mathlib.Data.List.Chain
import FlatDecls.Proofs.Json.Numerals
import FlatDecls.Proofs.Json.Strings

/-!
# The grammar of tokens

How each token may be written (`Token.Written`), and how a list of tokens may be: one behind the
other, with blanks before each and behind the last (`TokensWritten`). Scanning a text in which
every token is readable finds tokens that are written there (`written_of_scan`), and it finds the
written ones if no two values without parts stand side by side (`scan_of_written`): then nothing
that follows a number can be taken for a part of it.
-/

namespace FlatDecls.Json

open Text (isDigit)

/-! ### Grammar -/

/-- How a value without parts may be written. -/
inductive Atom.Written : Atom → List Char → Prop
  | null : Written .null ['n', 'u', 'l', 'l']
  | literalTrue : Written (.boolean true) ['t', 'r', 'u', 'e']
  | literalFalse : Written (.boolean false) ['f', 'a', 'l', 's', 'e']
  | number {n : Numeral} {cs : List Char} (written : n.Written cs) : Written (.number n) cs
  | string {ps : List Piece} {body : List Char} {s : String} (pieces : InARow Piece.Written ps body)
      (text : Piece.StandFor ps s.toList) : Written (.string s) ('"' :: (body ++ ['"']))
  /-- The pieces stand for no text. -/
  | loneSurrogate {ps : List Piece} {body : List Char} {f : Fault}
      (pieces : InARow Piece.Written ps body) (alone : Piece.Alone ps f) :
      Written (.loneSurrogate f) ('"' :: (body ++ ['"']))

/-- The marks and the tokens that they are. -/
def marks : List (Char × Token) :=
  [('[', .openArray), (']', .closeArray), ('\x7b', .openObject), ('\x7d', .closeObject),
    (',', .comma), (':', .colon)]

/-- How a token may be written. -/
inductive Token.Written : Token → List Char → Prop
  | punctuation {c : Char} {t : Token} (mark : (c, t) ∈ marks) : Written t [c]
  | atom {a : Atom} {cs : List Char} (written : a.Written cs) : Written (.atom a) cs

/-- The characters that may stand between tokens. -/
def blanks : List Char := [' ', '\t', '\n', '\r']

/-- All these characters may stand between tokens. -/
def Blank (cs : List Char) : Prop := ∀ c ∈ cs, c ∈ blanks

/-- A token with blanks before it. -/
inductive Token.Spaced (t : Token) : List Char → Prop
  | mk {bs cs : List Char} (blank : Blank bs) (written : t.Written cs) : Spaced t (bs ++ cs)

/-- Tokens with blanks before each and behind the last. -/
inductive TokensWritten (ts : List Token) : List Char → Prop
  | mk {cs bs : List Char} (tokens : InARow Token.Spaced ts cs) (blank : Blank bs) :
      TokensWritten ts (cs ++ bs)

/-- Is the token a value without parts? -/
def Token.isAtom : Token → Bool
  | atom _ => true
  | _ => false

/-- No two values without parts stand side by side. -/
def Separated (ts : List Token) : Prop :=
  ts.IsChain fun s t ↦ s.isAtom = false ∨ t.isAtom = false

/-! ### Values without parts -/

variable {cs rest : List Char} {a : Atom} {c : Char}

theorem scanString_of_standFor {ps : List Piece} {body : List Char} {s : String}
    (pieces : InARow Piece.Written ps body) (text : Piece.StandFor ps s.toList)
    (rest : List Char) : scanString (body ++ '"' :: rest) = .ok (.string s, rest) := by
  simp [scanString, scanPieces_of_inARow rest pieces, Piece.join_of_standFor text]

theorem scanString_of_alone {ps : List Piece} {body : List Char} {f : Fault}
    (pieces : InARow Piece.Written ps body) (alone : Piece.Alone ps f)
    (rest : List Char) : scanString (body ++ '"' :: rest) = .ok (.loneSurrogate f, rest) := by
  simp [scanString, scanPieces_of_inARow rest pieces, Piece.join_of_alone alone]

theorem written_of_scanString (h : scanString cs = .ok (a, rest)) :
    ∃ w, a.Written ('"' :: w) ∧ cs = w ++ rest := by
  rw [scanString] at h
  split at h
  next => cases h
  next ps left scanned =>
    obtain ⟨body, pieces, rfl⟩ := scanPieces_eq_iff.1 scanned
    have small := Piece.small_of_inARow pieces
    refine ⟨body ++ ['"'], ?_⟩
    split at h
    next s joined =>
      obtain ⟨rfl, rfl⟩ := Prod.mk.inj (Except.ok.inj h)
      have text := (Piece.join_eq_ok_iff small).1 joined
      exact ⟨.string pieces (by simpa using text), by simp⟩
    next f joined =>
      obtain ⟨rfl, rfl⟩ := Prod.mk.inj (Except.ok.inj h)
      exact ⟨.loneSurrogate pieces ((Piece.join_eq_error_iff small).1 joined), by simp⟩

theorem scanWord_append (a : Atom) (word rest : List Char) :
    scanWord a word (word ++ rest) = .ok (a, rest) := by
  induction word with
  | nil => rfl
  | cons w word ih => rw [List.cons_append, scanWord, if_pos rfl, ih]

theorem eq_of_scanWord {b : Atom} {word : List Char} (h : scanWord a word cs = .ok (b, rest)) :
    b = a ∧ cs = word ++ rest := by
  fun_induction scanWord a word cs with
  | case1 =>
    obtain ⟨rfl, rfl⟩ := Prod.mk.inj (Except.ok.inj h)
    exact ⟨rfl, rfl⟩
  | case2 => cases h
  | case3 w word cs ih => exact ⟨(ih h).1, congrArg _ (ih h).2⟩
  | case4 => cases h

/-- A numeral without its sign begins with a digit. -/
theorem Numeral.BodyWritten.isDigit_head {n : Numeral} (h : n.BodyWritten (c :: cs)) :
    isDigit c = true := by
  generalize written : c :: cs = w at h
  obtain ⟨whole, -, -⟩ := h
  obtain ⟨d, left, rfl, digit⟩ := exists_cons_of_digitsWritten whole.digits whole.nonempty
  obtain ⟨rfl, -⟩ := List.cons.inj written
  exact digit

/-- A value without parts is written in front of nothing that could belong to a number. -/
theorem scanAtom_append (h : a.Written (c :: cs)) (stop : Numeral.Ends rest) :
    scanAtom c (cs ++ rest) = .ok (a, rest) := by
  generalize written : c :: cs = w at h
  cases h with
  | null | literalTrue | literalFalse =>
    obtain ⟨rfl, rfl⟩ := List.cons.inj written
    exact scanWord_append _ _ rest
  | number h =>
    cases h with
    | plain sign body =>
      subst written
      have digit := body.isDigit_head
      have scanned := scanNumber_append body stop
      rw [sign] at scanned
      rw [scanAtom, if_neg, if_neg, if_neg, if_neg, if_neg, if_pos digit]
      · exact scanned
      all_goals
        rintro rfl
        contradiction
    | minus sign body =>
      obtain ⟨rfl, rfl⟩ := List.cons.inj written
      have scanned := scanNumber_append body stop
      rw [sign] at scanned
      exact scanned
  | string pieces text =>
    obtain ⟨rfl, rfl⟩ := List.cons.inj written
    rw [List.append_assoc]
    exact scanString_of_standFor pieces text rest
  | loneSurrogate pieces alone =>
    obtain ⟨rfl, rfl⟩ := List.cons.inj written
    rw [List.append_assoc]
    exact scanString_of_alone pieces alone rest

theorem written_of_scanAtom (h : scanAtom c cs = .ok (a, rest)) :
    ∃ w, a.Written (c :: w) ∧ cs = w ++ rest := by
  rw [scanAtom] at h
  split at h
  next is =>
    obtain ⟨rfl, rfl⟩ := eq_of_scanWord h
    exact ⟨_, is ▸ .null, rfl⟩
  split at h
  next is =>
    obtain ⟨rfl, rfl⟩ := eq_of_scanWord h
    exact ⟨_, is ▸ .literalTrue, rfl⟩
  split at h
  next is =>
    obtain ⟨rfl, rfl⟩ := eq_of_scanWord h
    exact ⟨_, is ▸ .literalFalse, rfl⟩
  split at h
  next is => exact is ▸ written_of_scanString h
  split at h
  next is =>
    obtain ⟨n, w, rfl, sign, body, rfl⟩ := written_of_scanNumber h
    exact ⟨w, is ▸ .number (.minus sign body), rfl⟩
  split at h
  next digit =>
    obtain ⟨n, w, rfl, sign, body, split⟩ := written_of_scanNumber h
    obtain ⟨whole, fraction, exponent⟩ := body
    obtain ⟨d, left, rfl, -⟩ := exists_cons_of_digitsWritten whole.digits whole.nonempty
    obtain ⟨rfl, rfl⟩ := List.cons.inj split
    exact ⟨_, .number (.plain sign (.mk whole fraction exponent)), rfl⟩
  next => cases h

/-! ### Single tokens -/

/-- The characters that are skipped between tokens are the blanks. -/
theorem isBlank_iff : isBlank c = true ↔ c ∈ blanks := by
  simp [isBlank, blanks, or_assoc]

/-- The tokens of a single character are the marks. -/
theorem punctuation?_eq_some_iff {t : Token} : punctuation? c = some t ↔ (c, t) ∈ marks := by
  constructor
  · intro h
    unfold punctuation? at h
    split at h
    case h_7 => cases h
    all_goals
      obtain rfl := Option.some.inj h
      decide
  · intro mark
    have each : marks.all (fun m ↦ punctuation? m.1 = some m.2) = true := rfl
    simpa using List.all_eq_true.1 each (c, t) mark

/-- The first character of a value without parts is neither a blank nor a mark. -/
theorem Atom.Written.head {w : List Char} (h : a.Written w) :
    ∃ c cs, w = c :: cs ∧ isBlank c = false ∧ punctuation? c = none := by
  have digit {n : Numeral} {w : List Char} (h : n.BodyWritten w) :
      ∃ c cs, w = c :: cs ∧ isBlank c = false ∧ punctuation? c = none := by
    obtain ⟨whole, -, -⟩ := h
    obtain ⟨c, left, rfl, digit⟩ :=
      exists_cons_of_digitsWritten whole.digits whole.nonempty
    refine ⟨c, _, rfl, ?_, ?_⟩
    · rw [← Bool.not_eq_true]
      intro blank
      simp only [isBlank, Bool.or_eq_true, decide_eq_true_eq] at blank
      rcases blank with ((rfl | rfl) | rfl) | rfl <;> contradiction
    · rw [punctuation?.eq_def]
      split <;> first | rfl | contradiction
  cases h with
  | number h =>
    cases h with
    | plain _ body => exact digit body
    | minus => exact ⟨_, _, rfl, rfl, rfl⟩
  | _ => exact ⟨_, _, rfl, rfl, rfl⟩

/-- No blank goes on with a number. -/
theorem goesOn_of_blank (h : c ∈ blanks) : Numeral.goesOn c = false := by
  have each : blanks.all (fun c ↦ !Numeral.goesOn c) = true := rfl
  simpa using List.all_eq_true.1 each c h

/-- A mark is no value without parts and no blank, and does not go on with a number. -/
theorem of_mark {t : Token} (h : (c, t) ∈ marks) :
    (t.isAtom = false ∧ isBlank c = false) ∧ Numeral.goesOn c = false := by
  have each : marks.all
      (fun m ↦ (!m.2.isAtom && !isBlank m.1) && !Numeral.goesOn m.1) = true := rfl
  simpa using List.all_eq_true.1 each (c, t) h

/-! ### Scanning -/

/-- Blanks are skipped. -/
theorem scan_append_of_blank {bs : List Char} (blank : Blank bs) (cs : List Char) :
    scan (bs ++ cs) = scan cs := by
  induction bs with
  | nil => rfl
  | cons b bs ih =>
    rw [List.cons_append, scan, if_pos (isBlank_iff.2 (blank b List.mem_cons_self)),
      ih fun c hc ↦ blank c (List.mem_cons_of_mem _ hc)]

theorem scan_of_blank {bs : List Char} (blank : Blank bs) : scan bs = [] := by
  simpa [scan] using scan_append_of_blank blank []

/-- A written token is scanned, and scanning goes on behind it. -/
theorem scan_append {t : Token} {w : List Char} (h : t.Written w)
    (stop : t.isAtom = true → Numeral.Ends rest) : scan (w ++ rest) = t :: scan rest := by
  cases h with
  | punctuation mark =>
    rw [List.singleton_append, scan, if_neg (by rw [(of_mark mark).1.2]; simp),
      punctuation?_eq_some_iff.2 mark]
  | atom written =>
    obtain ⟨c, cs, rfl, blank, mark⟩ := written.head
    have scanned := scanAtom_append written (stop rfl)
    rw [List.cons_append, scan, if_neg (by simp [blank]), mark]
    dsimp only
    split
    next failed => cases scanned.symm.trans failed
    next left read =>
      obtain ⟨rfl, rfl⟩ := Prod.mk.inj (Except.ok.inj (scanned.symm.trans read))
      rfl

/-- What follows a value without parts does not go on with it. -/
theorem ends_of_written {ts : List Token} {bs : List Char} (tokens : InARow Token.Spaced ts cs)
    (blank : Blank bs) (head : ∀ t ∈ ts.head?, t.isAtom = false) : Numeral.Ends (cs ++ bs) := by
  intro c hc
  -- the next character is a blank at the end, a blank before the next token, or a mark
  cases tokens with
  | nil => exact goesOn_of_blank (blank c (List.mem_of_head? hc))
  | cons spaced rest =>
    obtain @⟨before, w, blank, written⟩ := spaced
    cases before with
    | cons b before =>
      obtain rfl : b = c := by simpa using hc
      exact goesOn_of_blank (blank b List.mem_cons_self)
    | nil =>
      cases written with
      | @punctuation d _ mark =>
        obtain rfl : d = c := by simpa using hc
        exact (of_mark mark).2
      | atom => exact absurd (head _ rfl) nofun

/-- The written tokens are scanned. -/
theorem scan_of_written {ts : List Token} (h : TokensWritten ts cs) (apart : Separated ts) :
    scan cs = ts := by
  obtain ⟨tokens, blank⟩ := h
  induction tokens with
  | nil => exact scan_of_blank blank
  | cons spaced rest ih =>
    obtain ⟨before, written⟩ := spaced
    rw [List.append_assoc, List.append_assoc, scan_append_of_blank before, scan_append written,
      ih apart.tail]
    intro atom
    apply ends_of_written rest blank
    intro t ht
    simpa [atom] using apart.rel_head? ht

/-- A token may be written in front. -/
theorem TokensWritten.cons {t : Token} {ts : List Token} {w : List Char} (h : t.Written w)
    (rest : TokensWritten ts cs) : TokensWritten (t :: ts) (w ++ cs) := by
  obtain ⟨tokens, blank⟩ := rest
  have spaced : t.Spaced ([] ++ w) := .mk nofun h
  rw [← List.append_assoc]
  exact .mk (.cons spaced tokens) blank

/-- A blank may be written in front. -/
theorem TokensWritten.cons_blank {ts : List Token} (blank : c ∈ blanks)
    (rest : TokensWritten ts cs) : TokensWritten ts (c :: cs) := by
  have more {bs : List Char} (h : Blank bs) : Blank (c :: bs) := List.forall_mem_cons.2 ⟨blank, h⟩
  obtain ⟨tokens, after⟩ := rest
  cases tokens with
  | nil => exact .mk .nil (more after)
  | cons spaced rest =>
    obtain ⟨before, written⟩ := spaced
    exact .mk (.cons (.mk (more before) written) rest) after

/-- Where every token is readable, the scanned tokens are written. -/
theorem written_of_scan (readable : ∀ b d, .unreadable b d ∉ scan cs) :
    TokensWritten (scan cs) cs := by
  fun_induction scan cs with
  | case1 =>
    have nothing : TokensWritten [] ([] ++ []) := .mk .nil nofun
    exact nothing
  | case2 c cs blank ih => exact (ih readable).cons_blank (isBlank_iff.1 blank)
  | case3 c cs _ t mark ih =>
    have mark := punctuation?_eq_some_iff.1 mark
    exact (ih fun b d h ↦ readable b d (List.mem_cons_of_mem _ h)).cons (.punctuation mark)
  | case4 c cs _ _ d failed => exact absurd List.mem_cons_self (readable _ _)
  | case5 c cs _ _ a left scanned _ ih =>
    obtain ⟨w, written, rfl⟩ := written_of_scanAtom scanned
    exact (ih fun b d h ↦ readable b d (List.mem_cons_of_mem _ h)).cons (.atom written)

end FlatDecls.Json
