import FlatDecls.Proofs.Text.Digits
import FlatDecls.Proofs.Toml.Lines
import FlatDecls.Proofs.Toml.Places

/-!
# How assignments of texts are written

Apart from any reader: the text between double quotes character by character, each as it is or as an
escape (`Spells`), keys without quotes or in either kind of quotes (`SpellsKey`), and documents that
assign texts to keys, one on a line, with blank lines and comments in between (`Assigns`). Every
text can be written (`exists_spells`), and what is written is read (`Assigns.statements?_eq`,
`Assigns.read?_eq`).
-/

namespace FlatDecls.Toml

open Text (HexDigit hexDigit hexDigit?_eq_some_iff hexDigit_written ofDigits
  ofDigits_eq_positional positional)

variable {cs rest : List Char}

/-! ### Texts between double quotes -/

/-- The letters of escapes and what they stand for. -/
def shortEscapes : List (Char × Char) :=
  [('"', '"'), ('\\', '\\'), ('b', '\x08'), ('e', '\x1b'), ('f', '\x0c'), ('n', '\n'),
    ('r', '\r'), ('t', '\t')]

/-- The letters of escapes by number, and how many hexadecimal digits follow them. -/
def numberedEscapes : List (Char × Nat) := [('x', 2), ('u', 4), ('U', 8)]

/-- How a text may be written between double quotes. -/
inductive Spells : List Char → List Char → Prop
  | nil : Spells [] []
  | plain {c : Char} {s cs : List Char} (plain : isPlain c = true) (quote : c ≠ '"')
      (backslash : c ≠ '\\') (rest : Spells s cs) : Spells (c :: s) (c :: cs)
  | short {e c : Char} {s cs : List Char} (letter : (e, c) ∈ shortEscapes)
      (rest : Spells s cs) : Spells (c :: s) ('\\' :: e :: cs)
  | numbered {e c : Char} {ds s cs : List Char} {ns : List Nat}
      (letter : (e, ds.length) ∈ numberedEscapes) (digits : List.Forall₂ HexDigit ns ds)
      (number : positional 16 ns = c.toNat) (rest : Spells s cs) :
      Spells (c :: s) ('\\' :: e :: (ds ++ cs))

/-- Hexadecimal digits are taken one by one, each as the next place of the number. -/
theorem hexNumber?_append {ds : List Char} {ns : List Nat} (digits : List.Forall₂ HexDigit ns ds)
    (n : Nat) (rest : List Char) : hexNumber? ds.length n (ds ++ rest) =
      some (ns.foldl (fun n d ↦ 16 * n + d) n, rest) := by
  induction digits generalizing n with
  | nil => rfl
  | @cons d c ns ds first _ ih =>
    rw [List.cons_append, List.length_cons, hexNumber?, hexDigit?_eq_some_iff.2 first]
    exact ih (16 * n + d)

/-- Every character comes back from its number. -/
theorem scalar?_toNat (c : Char) : scalar? c.toNat = some c := by
  have valid : c.toNat < 0xD800 ∨ 0xDFFF < c.toNat ∧ c.toNat < 0x110000 := c.valid
  rw [scalar?, if_pos, Char.ofNat_toNat]
  simp only [Bool.or_eq_true, Bool.and_eq_true, decide_eq_true_eq]
  omega

/-- An escape of one letter stands for the character that the table gives. -/
theorem escape?_short {e c : Char} (letter : (e, c) ∈ shortEscapes) (rest : List Char) :
    escape? (e :: rest) = some (c, rest) := by
  simp only [shortEscapes, List.mem_cons, Prod.mk.injEq, List.not_mem_nil, or_false] at letter
  rcases letter with ⟨rfl, rfl⟩ | ⟨rfl, rfl⟩ | ⟨rfl, rfl⟩ | ⟨rfl, rfl⟩ | ⟨rfl, rfl⟩ | ⟨rfl, rfl⟩ |
    ⟨rfl, rfl⟩ | ⟨rfl, rfl⟩
  all_goals rfl

/-- An escape with a number stands for the character of this number, whatever the case of its
digits. -/
theorem escape?_numbered {e c : Char} {ds : List Char} {ns : List Nat}
    (letter : (e, ds.length) ∈ numberedEscapes) (digits : List.Forall₂ HexDigit ns ds)
    (number : positional 16 ns = c.toNat) (rest : List Char) :
    escape? (e :: (ds ++ rest)) = some (c, rest) := by
  have read : numbered? ds.length (ds ++ rest) = some (c, rest) := by
    rw [numbered?, hexNumber?_append digits]
    show (scalar? (ofDigits 16 ns)).bind _ = _
    rw [ofDigits_eq_positional, number, scalar?_toNat]
    rfl
  simp only [numberedEscapes, List.mem_cons, Prod.mk.injEq, List.not_mem_nil, or_false] at letter
  rcases letter with ⟨rfl, width⟩ | ⟨rfl, width⟩ | ⟨rfl, width⟩
  all_goals
    rw [width] at read
    exact read

/-- What is written between double quotes is read up to the closing one. -/
theorem basic?_of_spells {s body : List Char} (h : Spells s body) (rest : List Char) :
    basic? (body ++ '"' :: rest) = some (s, rest) := by
  induction h with
  | nil => rw [List.nil_append, basic?]
  | plain plain quote backslash _ ih =>
    rw [List.cons_append, basic?.eq_4 _ _ quote backslash, if_pos plain, ih]
    rfl
  | short letter _ ih =>
    rw [List.cons_append, List.cons_append, basic?_escape (escape?_short letter _), ih]
    rfl
  | numbered letter digits number _ ih =>
    rw [List.cons_append, List.cons_append, List.append_assoc,
      basic?_escape (escape?_numbered letter digits number _), ih]
    rfl

/-- A text without quotes, backslashes and control characters can be written as it is. -/
theorem spells_self {s : List Char}
    (h : (s.all fun c ↦ isPlain c && c != '"' && c != '\\') = true) : Spells s s := by
  induction s with
  | nil => exact .nil
  | cons c s ih =>
    simp only [List.all_cons, Bool.and_eq_true, bne_iff_ne] at h
    obtain ⟨⟨⟨plain, quote⟩, backslash⟩, others⟩ := h
    exact .plain plain quote backslash (ih others)

/-- Every text can be written between double quotes. -/
theorem exists_spells (s : List Char) : ∃ body, Spells s body := by
  induction s with
  | nil => exact ⟨[], .nil⟩
  | cons c s ih =>
    obtain ⟨body, written⟩ := ih
    by_cases bare : isPlain c = true ∧ c ≠ '"' ∧ c ≠ '\\'
    · exact ⟨_, .plain bare.1 bare.2.1 bare.2.2 written⟩
    · have small : c.toNat < 128 := by
        refine Nat.lt_of_not_le fun large ↦ bare ⟨?_, ?_, ?_⟩
        · simp only [isPlain, Bool.or_eq_true, Bool.and_eq_true, decide_eq_true_eq]
          omega
        · rintro rfl
          exact absurd large (by decide)
        · rintro rfl
          exact absurd large (by decide)
      have high : HexDigit (c.toNat / 16) (hexDigit (c.toNat / 16)) := hexDigit_written (by omega)
      have low : HexDigit (c.toNat % 16) (hexDigit (c.toNat % 16)) := hexDigit_written (by omega)
      have number : positional 16 [c.toNat / 16, c.toNat % 16] = c.toNat := by
        simp only [positional, List.length_cons, List.length_nil]
        omega
      have letter : ('x', 2) ∈ numberedEscapes := by decide
      exact ⟨_, .numbered letter (.cons high (.cons low .nil)) number written⟩

/-! ### Keys -/

/-- How a part of a key may be written. -/
inductive SpellsKey : String → List Char → Prop
  | bare {cs : List Char} (some : cs ≠ []) (word : ∀ c ∈ cs, isBareKeyChar c = true) :
      SpellsKey (String.ofList cs) cs
  | basic {key : String} {body : List Char} (inside : Spells key.toList body) :
      SpellsKey key ('"' :: (body ++ ['"']))
  | literal {cs : List Char} (plain : ∀ c ∈ cs, isPlain c = true) (mark : '\'' ∉ cs) :
      SpellsKey (String.ofList cs) ('\'' :: (cs ++ ['\'']))

/-- A text in single quotes stands for itself. -/
theorem literal?_append (plain : ∀ c ∈ cs, isPlain c = true) (mark : '\'' ∉ cs)
    (rest : List Char) : literal? (cs ++ '\'' :: rest) = some (cs, rest) := by
  induction cs with
  | nil => rfl
  | cons c cs ih =>
    rw [List.forall_mem_cons] at plain
    rw [List.mem_cons, not_or] at mark
    rw [List.cons_append, literal?.eq_3 _ _ (fun same ↦ mark.1 same.symm), if_pos plain.1,
      ih plain.2 mark.2]
    rfl

/-- A key is read if nothing behind it could belong to a word. -/
theorem keyPart?_of_spellsKey {key : String} (h : SpellsKey key cs)
    (stop : ∀ c ∈ rest.head?, isBareKeyChar c = false) :
    keyPart? (cs ++ rest) = some (key, rest) := by
  cases h with
  | bare some word =>
    obtain ⟨c, cs, rfl⟩ := List.exists_cons_of_ne_nil some
    have first := word c List.mem_cons_self
    have run : (c :: cs ++ rest).takeWhile isBareKeyChar = c :: cs := by
      rw [List.takeWhile_append_of_pos word]
      cases rest with
      | nil => simp
      | cons d rest => simp [stop d rfl]
    have behind : (c :: cs ++ rest).dropWhile isBareKeyChar = rest := by
      rw [List.dropWhile_append_of_pos word]
      cases rest with
      | nil => rfl
      | cons d rest => simp [stop d rfl]
    rw [keyPart?.eq_3, run, behind]
    · rintro left same
      obtain rfl := (List.cons.inj same).1
      cases first
    · rintro left same
      obtain rfl := (List.cons.inj same).1
      cases first
  | basic inside =>
    rw [List.cons_append, keyPart?, List.append_assoc]
    show (basic? (_ ++ '"' :: rest)).map _ = _
    rw [basic?_of_spells inside]
    simp
  | literal plain mark =>
    rw [List.cons_append, keyPart?, List.append_assoc]
    show (literal? (_ ++ '\'' :: rest)).map _ = _
    rw [literal?_append plain mark]
    rfl

/-! ### Ends of lines -/

/-- What may stand behind the contents of a line: blanks and a comment. -/
inductive Margin : List Char → Prop
  | bare {bs : List Char} (blank : ∀ b ∈ bs, isBlank b = true) : Margin bs
  | comment {bs cs : List Char} (blank : ∀ b ∈ bs, isBlank b = true)
      (plain : ∀ c ∈ cs, isPlain c = true) : Margin (bs ++ '#' :: cs)

/-- How a line may end in front of a text; the last one may end with the text. -/
inductive LineEnd : List Char → List Char → Prop
  | feed (rest : List Char) : LineEnd ['\n'] rest
  | both (rest : List Char) : LineEnd ['\r', '\n'] rest
  | text : LineEnd [] []

theorem skipBlanks_append {bs : List Char} (blank : ∀ b ∈ bs, isBlank b = true)
    (rest : List Char) : skipBlanks (bs ++ rest) = skipBlanks rest :=
  List.dropWhile_append_of_pos blank

/-- Blanks and a comment may stand in front of a line end, and nothing of them is left. -/
theorem skipComment_of_margin {m e : List Char} (margin : Margin m) (ends : LineEnd e rest) :
    skipComment (skipBlanks (m ++ (e ++ rest))) = e ++ rest := by
  cases margin with
  | bare blank =>
    rw [skipBlanks_append blank]
    cases ends with
    | feed | both | text => rfl
  | comment blank plain =>
    rw [List.append_assoc, skipBlanks_append blank]
    show List.dropWhile isPlain (_ ++ (e ++ rest)) = e ++ rest
    rw [List.dropWhile_append_of_pos plain]
    cases ends with
    | feed | both | text => rfl

/-- So a line ends behind its margin. -/
theorem endLine?_of_margin {m e : List Char} (margin : Margin m) (ends : LineEnd e rest) :
    endLine? (m ++ (e ++ rest)) = some rest := by
  rw [endLine?, skipComment_of_margin margin ends]
  cases ends with
  | feed | both | text => rfl

theorem skipSpace_blanks {bs : List Char} (blank : ∀ b ∈ bs, isBlank b = true)
    (rest : List Char) : skipSpace (bs ++ rest) = skipSpace rest := by
  induction bs with
  | nil => rfl
  | cons b bs ih =>
    rw [List.forall_mem_cons] at blank
    rw [← ih blank.2, skipSpace, skipSpace, List.cons_append, skipSpaceFrom.eq_3, if_neg (by simp),
      if_pos blank.1]
    · rintro rfl
      cases blank.1
    · rintro left rfl
      cases blank.1

/-- What a comment says is passed over. -/
theorem skipSpaceFrom_plain (plain : ∀ c ∈ cs, isPlain c = true) (rest : List Char) :
    skipSpaceFrom true (cs ++ rest) = skipSpaceFrom true rest := by
  induction cs with
  | nil => rfl
  | cons c cs ih =>
    rw [List.forall_mem_cons] at plain
    rw [← ih plain.2, List.cons_append, skipSpaceFrom.eq_3, if_pos rfl, if_pos plain.1]
    · rintro rfl
      cases plain.1
    · rintro left rfl
      cases plain.1

/-- A line end also ends a comment. -/
theorem skipSpaceFrom_lineEnd {e : List Char} (ends : LineEnd e rest) (inComment : Bool) :
    skipSpaceFrom inComment (e ++ rest) = skipSpace rest := by
  cases ends with
  | feed => rw [List.singleton_append, skipSpaceFrom, skipSpace]
  | both => rw [List.cons_append, List.singleton_append, skipSpaceFrom, skipSpace]
  | text => rfl

/-- A line without contents is skipped. -/
theorem skipSpace_of_margin {m e : List Char} (margin : Margin m) (ends : LineEnd e rest) :
    skipSpace (m ++ (e ++ rest)) = skipSpace rest := by
  cases margin with
  | bare blank => rw [skipSpace_blanks blank, skipSpace, skipSpaceFrom_lineEnd ends]
  | comment blank plain =>
    rw [List.append_assoc, skipSpace_blanks blank]
    show skipSpaceFrom false ('#' :: (_ ++ (e ++ rest))) = _
    rw [skipSpaceFrom.eq_3 _ _ _ (by decide) (fun _ same ↦ absurd same (by decide))]
    exact (skipSpaceFrom_plain plain _).trans (skipSpaceFrom_lineEnd ends true)

/-! ### Assignments -/

/-- How a key may be given a text. -/
inductive SpellsSetting (key value : String) : List Char → Prop
  | mk {bs word bs' bs'' body : List Char} (blank : ∀ b ∈ bs, isBlank b = true)
      (named : SpellsKey key word) (blank' : ∀ b ∈ bs', isBlank b = true)
      (blank'' : ∀ b ∈ bs'', isBlank b = true) (inside : Spells value.toList body) :
      SpellsSetting key value (bs ++ (word ++ (bs' ++ '=' :: (bs'' ++ '"' :: (body ++ ['"'])))))

/-- How a document may be written that gives texts to keys: one assignment on a line, with comments
and blank lines anywhere. -/
inductive Assigns : List (String × String) → List Char → Prop
  | nil : Assigns [] []
  | pass {settings : List (String × String)} {m e cs : List Char} (margin : Margin m)
      (ends : LineEnd e cs) (rest : Assigns settings cs) : Assigns settings (m ++ (e ++ cs))
  | line {key value : String} {settings : List (String × String)} {l m e cs : List Char}
      (setting : SpellsSetting key value l) (margin : Margin m) (ends : LineEnd e cs)
      (rest : Assigns settings cs) : Assigns ((key, value) :: settings) (l ++ (m ++ (e ++ cs)))

/-- The first character of a key. -/
theorem SpellsKey.exists_cons {key : String} (h : SpellsKey key cs) :
    ∃ c left, cs = c :: left ∧ (isBareKeyChar c = true ∨ c = '"' ∨ c = '\'') := by
  cases h with
  | bare some word =>
    obtain ⟨c, cs, rfl⟩ := List.exists_cons_of_ne_nil some
    exact ⟨c, cs, rfl, .inl (word c List.mem_cons_self)⟩
  | basic => exact ⟨_, _, rfl, .inr (.inl rfl)⟩
  | literal => exact ⟨_, _, rfl, .inr (.inr rfl)⟩

/-- A key is neither skipped nor taken for a header. -/
theorem SpellsKey.front {key : String} (h : SpellsKey key cs) (rest : List Char) :
    ∃ c left, skipSpace (cs ++ rest) = c :: left ∧ c :: left = cs ++ rest ∧ c ≠ '[' := by
  obtain ⟨c, left, rfl, first⟩ := h.exists_cons
  have other {d : Char} (bare : isBareKeyChar d = false) (quote : d ≠ '"') (mark : d ≠ '\'') :
      c ≠ d := by
    rintro rfl
    rcases first with first | first | first
    · cases bare.symm.trans first
    · exact quote first
    · exact mark first
  have blank : isBlank c = false := by
    rw [isBlank, Bool.or_eq_false_iff, decide_eq_false_iff_not, decide_eq_false_iff_not]
    exact ⟨other rfl (by decide) (by decide), other rfl (by decide) (by decide)⟩
  refine ⟨c, left ++ rest, ?_, rfl, other rfl (by decide) (by decide)⟩
  rw [List.cons_append, skipSpace, skipSpaceFrom.eq_3, if_neg (by simp), if_neg (by simp [blank]),
    if_neg (other rfl (by decide) (by decide))]
  · exact other rfl (by decide) (by decide)
  · intro _ same
    exact absurd same (other rfl (by decide) (by decide))

/-- A blank ends a bare key. -/
theorem not_isBareKeyChar_of_isBlank {c : Char} (blank : isBlank c = true) :
    isBareKeyChar c = false := by
  rw [isBlank, Bool.or_eq_true, decide_eq_true_eq, decide_eq_true_eq] at blank
  rcases blank with rfl | rfl
  · rfl
  · rfl

/-- A key is read from its spelling, with blanks between it and the sign. -/
theorem key?_of_spellsKey {key : String} {bs : List Char} (h : SpellsKey key cs)
    (blank : ∀ b ∈ bs, isBlank b = true) (rest : List Char) :
    key? (cs ++ (bs ++ '=' :: rest)) = some (⟨[], key⟩, '=' :: rest) := by
  have stop : ∀ c ∈ (bs ++ '=' :: rest).head?, isBareKeyChar c = false := by
    cases bs with
    | nil =>
      rintro c ⟨⟩
      rfl
    | cons b bs =>
      rintro c ⟨⟩
      exact not_isBareKeyChar_of_isBlank (blank b List.mem_cons_self)
  have sign : skipBlanks (bs ++ '=' :: rest) = '=' :: rest := skipBlanks_append blank _
  have last (left : List Char) : skipBlanks (bs ++ '=' :: rest) ≠ '.' :: left := by
    rw [sign]
    exact fun same ↦ absurd (List.cons.inj same).1 (by decide)
  rw [key?, keyFrom?_last (keyPart?_of_spellsKey h stop) last, sign]
  rfl

/-- A text is read from its spelling. A third quote behind the empty text would begin one over many
lines, so none may follow. -/
theorem string?_of_spells {s : String} {body : List Char} (h : Spells s.toList body)
    (stop : rest.head? ≠ some '"') :
    string? ('"' :: (body ++ '"' :: rest)) = some (s, rest) := by
  have single (left : List Char) : body ++ '"' :: rest ≠ '"' :: '"' :: left := by
    intro same
    generalize s.toList = text at h
    cases h with
    | nil =>
      obtain rfl := (List.cons.inj same).2
      exact stop rfl
    | plain _ quote => exact quote (List.cons.inj same).1
    | short | numbered => exact absurd (List.cons.inj same).1 (by decide)
  rw [string?, contents?.eq_3 _ single, basic?_of_spells h]
  simp

/-- A value that begins with a quote is a text, at every depth. -/
theorem Reader.read_value_quote (depth : Nat) (cs : List Char) :
    (Reader.value depth).read ('"' :: cs) =
      (string? ('"' :: cs)).map fun (s, rest) ↦ (.string s, rest) := by
  cases depth with
  | zero => rfl
  | succ depth => rfl

/-- A line that gives a key a text is read as this assignment. -/
theorem statement?_of_spellsSetting {key value : String} {l : List Char}
    (h : SpellsSetting key value l) (stop : rest.head? ≠ some '"') :
    ∃ c left, skipSpace (l ++ rest) = c :: left ∧
      statement? (c :: left) = some (.assign ⟨[], key⟩ (.string value), rest) := by
  obtain @⟨bs, word, bs', bs'', body, blank, named, blank', blank'', inside⟩ := h
  obtain ⟨c, left, front, same, other⟩ :=
    named.front (bs' ++ '=' :: (bs'' ++ '"' :: (body ++ '"' :: rest)))
  refine ⟨c, left, ?_, ?_⟩
  · rw [← front, List.append_assoc, skipSpace_blanks blank]
    simp
  · have assigned : assignment? skipBlanks (.value nestingLimit) (c :: left) =
        some ((⟨[], key⟩, .string value), rest) := by
      have behind : skipBlanks ('=' :: (bs'' ++ '"' :: (body ++ '"' :: rest))) =
          '=' :: (bs'' ++ '"' :: (body ++ '"' :: rest)) := rfl
      have opened : skipBlanks (bs'' ++ '"' :: (body ++ '"' :: rest)) =
          '"' :: (body ++ '"' :: rest) := skipBlanks_append blank'' _
      simp [assignment?, same, key?_of_spellsKey named blank', behind, opened,
        Reader.read_value_quote, string?_of_spells inside stop]
    rw [statement?.eq_3, assigned]
    · rfl
    · intro rest same
      exact other (List.cons.inj same).1
    · intro rest same
      exact other (List.cons.inj same).1

/-- Behind a text its line ends. -/
theorem head?_of_margin {m e : List Char} (margin : Margin m) (ends : LineEnd e rest) :
    (m ++ (e ++ rest)).head? ≠ some '"' := by
  have other {b : Char} {bs : List Char} (blank : ∀ c ∈ b :: bs, isBlank c = true) : b ≠ '"' := by
    rintro rfl
    cases blank _ List.mem_cons_self
  cases margin with
  | bare blank =>
    cases m with
    | nil =>
      cases ends with
      | feed | both | text => simp
    | cons b bs => simpa using other blank
  | @comment bs cs blank plain =>
    cases bs with
    | nil => simp
    | cons b bs => simpa using other blank

/-- A document that gives texts to keys says so and nothing else. -/
theorem Assigns.statements?_eq {settings : List (String × String)} (h : Assigns settings cs) :
    statements? cs =
      some (settings.map fun (key, value) ↦ .assign ⟨[], key⟩ (.string value)) := by
  induction h with
  | nil => exact statements?_nil rfl
  | pass margin ends rest ih => rw [statements?_of_skipSpace (skipSpace_of_margin margin ends), ih]
  | line setting margin ends rest ih =>
    obtain ⟨c, left, front, said⟩ :=
      statement?_of_spellsSetting setting (head?_of_margin margin ends)
    rw [statements?_cons front said (endLine?_of_margin margin ends), ih]
    rfl

/-- A document that gives texts to keys is read as these assignments, each on a line of its own. -/
theorem Assigns.lines {settings : List (String × String)} (h : Assigns settings cs)
    (ends : cs = [] ∨ EndsLine cs) :
    Lines cs (settings.map fun (key, value) ↦ .assign ⟨[], key⟩ (.string value)) :=
  ⟨h.statements?_eq, ends⟩

/-- Each text is given to its key at the top of the document. -/
theorem places_settings (settings : List (String × String)) :
    places [] (settings.map fun (key, value) ↦ .assign ⟨[], key⟩ (.string value)) =
      settings.map fun (key, value) ↦ ([key], some (.string value)) := by
  induction settings with
  | nil => rfl
  | cons setting settings ih =>
    rw [List.map_cons, List.map_cons, places, Statement.opens, ih]
    rfl

/-- Assignments leave the current table as it is. -/
theorem foldl_opens_settings (settings : List (String × String)) :
    (settings.map fun (key, value) ↦ Statement.assign ⟨[], key⟩ (.string value)).foldl
      Statement.opens [] = [] := by
  induction settings with
  | nil => rfl
  | cons setting settings ih => exact ih

/-- A new key without dots comes last. -/
theorem Draft.step_assign {t : Table} {key : String} (undotted : t.origin ≠ .dotted)
    (new : key ∉ t.entries.map (·.key)) (v : Value) :
    Draft.step ⟨t, []⟩ (.assign ⟨[], key⟩ v) =
      some ⟨⟨t.origin, t.entries ++ [⟨key, .value v⟩]⟩, []⟩ := by
  have missing : t.entries.any (·.key == key) = false := by
    rw [List.any_eq_false]
    intro e mem same
    exact new (List.mem_map.2 ⟨e, mem, by simpa using same⟩)
  have free : t.find? key = none := by
    rw [Table.find?, Option.map_eq_none_iff, List.find?_eq_none]
    exact List.any_eq_false.1 missing
  have put : t.put key (.value v) = ⟨t.origin, t.entries ++ [⟨key, .value v⟩]⟩ := by
    rw [Table.put, missing]
    rfl
  show (t.insert false key v).bind _ = _
  rw [Table.insert, if_neg (by simpa using undotted), if_neg (by simp [free]), put]
  rfl

/-- New keys with texts are added to the top table in their order. -/
theorem Draft.run_assigns (settings : List (String × String)) {t : Table}
    (undotted : t.origin ≠ .dotted)
    (distinct : (t.entries.map (·.key) ++ settings.map Prod.fst).Nodup) :
    (settings.map fun (key, value) ↦ Statement.assign ⟨[], key⟩ (.string value)).foldlM
        Draft.step ⟨t, []⟩ =
      some ⟨⟨t.origin, t.entries ++ settings.map fun (key, value) ↦
        ⟨key, .value (.string value)⟩⟩, []⟩ := by
  induction settings generalizing t with
  | nil =>
    obtain ⟨origin, entries⟩ := t
    simp
  | cons setting settings ih =>
    obtain ⟨key, value⟩ := setting
    have new : key ∉ t.entries.map (·.key) := fun mem ↦
      (List.nodup_append.1 distinct).2.2 key mem key List.mem_cons_self rfl
    rw [List.map_cons, List.foldlM_cons, Draft.step_assign undotted new]
    have later := ih (t := ⟨t.origin, t.entries ++ [⟨key, .value (.string value)⟩]⟩) undotted
      (by simpa using distinct)
    refine later.trans ?_
    simp

theorem entriesValid_texts (settings : List (String × String)) :
    entriesValid (settings.map fun (key, value) ↦ (key, .string value)) = true := by
  induction settings with
  | nil => rfl
  | cons setting settings ih => simpa [entriesValid, Value.isValid] using ih

theorem entryValues_texts (settings : List (String × String)) :
    entryValues (settings.map fun (key, value) ↦ ⟨key, .value (.string value)⟩) =
      settings.map fun (key, value) ↦ (key, .string value) := by
  induction settings with
  | nil => rfl
  | cons setting settings ih =>
    rw [List.map_cons, entryValues, ih]
    rfl

/-- A document that gives texts to different keys is read as just these. -/
theorem Assigns.read?_eq {settings : List (String × String)} {text : String}
    (h : Assigns settings (skipMark text.toList)) (distinct : (settings.map Prod.fst).Nodup) :
    read? text = some (settings.map fun (key, value) ↦ (key, .string value)) := by
  have run := Draft.run_assigns settings (t := .empty .header) (by simp [Table.empty]) distinct
  rw [read?, h.statements?_eq]
  show (List.foldlM Draft.step _ _).bind _ = _
  rw [run]
  show (if entriesValid (entryValues _) = true then some (entryValues _) else none) = _
  rw [Table.empty, List.nil_append, entryValues_texts, if_pos (entriesValid_texts settings)]

/-- The usual form of an assignment. -/
theorem spellsSetting_of_word {key value : String} {body : List Char} (some : key.toList ≠ [])
    (word : key.toList.all isBareKeyChar = true) (inside : Spells value.toList body) :
    SpellsSetting key value (key.toList ++ (" = \"".toList ++ (body ++ ['"']))) := by
  have named : SpellsKey key key.toList := by
    simpa using SpellsKey.bare some (List.all_eq_true.1 word)
  have empty : ∀ b ∈ ([] : List Char), isBlank b = true := by simp
  have blank : ∀ b ∈ [' '], isBlank b = true := List.all_eq_true.1 rfl
  exact .mk empty named blank blank inside

/-- Every text can be given to every key. -/
theorem exists_spellsSetting (key value : String) : ∃ l, SpellsSetting key value l := by
  obtain ⟨word, named⟩ := exists_spells key.toList
  obtain ⟨body, inside⟩ := exists_spells value.toList
  have blank : ∀ b ∈ ([] : List Char), isBlank b = true := by simp
  exact ⟨_, .mk blank (.basic named) blank blank inside⟩

/-- Any keys can be given any texts, since every character has an escape. -/
theorem exists_assigns (settings : List (String × String)) : ∃ cs, Assigns settings cs := by
  induction settings with
  | nil => exact ⟨[], .nil⟩
  | cons setting settings ih =>
    obtain ⟨key, value⟩ := setting
    obtain ⟨cs, rest⟩ := ih
    obtain ⟨l, written⟩ := exists_spellsSetting key value
    have blank : ∀ b ∈ ([] : List Char), isBlank b = true := by simp
    exact ⟨_, .line written (.bare blank) (.feed cs) rest⟩

end FlatDecls.Toml
