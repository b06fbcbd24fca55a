import FlatDecls.Text.Digit

/-!
# JSON values and their texts

Values as a program writes them: integers are the only numbers, and the members of an object
keep their order. There are two texts of a value, one without blanks and one with a member or
item on a line of its own. Strings are written raw except for quotes, backslashes and the
characters below the space.
-/

namespace FlatDecls.Json

open Text (hexDigit)

/-- A value to be written. -/
inductive Value
  | null
  | boolean (b : Bool)
  | integer (n : Int)
  | string (s : String)
  | array (items : List Value)
  | object (members : List (String × Value))
  deriving Repr

namespace Value

/-- A member that is written only if it has a value. -/
def optionalMember (key : String) (v : Option Value) : List (String × Value) :=
  (v.map fun v ↦ (key, v)).toList

/-- A text member that is written only if it is present. -/
def optionalText (key : String) (s : Option String) : List (String × Value) :=
  optionalMember key (s.map string)

/-! ### Strings -/

/-- A character in a string. -/
def escapeChar (c : Char) : List Char :=
  if c = '"' then ['\\', '"']
  else if c = '\\' then ['\\', '\\']
  else if c = '\x08' then ['\\', 'b']
  else if c = '\x0c' then ['\\', 'f']
  else if c = '\n' then ['\\', 'n']
  else if c = '\r' then ['\\', 'r']
  else if c = '\t' then ['\\', 't']
  else if c.toNat < 0x20 then
    ['\\', 'u', '0', '0', hexDigit (c.toNat / 16), hexDigit (c.toNat % 16)]
  else [c]

/-- A string with its quotes. -/
def quote (s : String) : List Char :=
  '"' :: s.toList.flatMap escapeChar ++ ['"']

/-- The text of a value without parts; containers have their own rules. -/
def atomText : Value → List Char
  | null => "null".toList
  | boolean b => (toString b).toList
  | integer n => (toString n).toList
  | string s => quote s
  | array _ => []
  | object _ => []

/-! ### Without blanks -/

mutual

/-- The text of a value without any blanks. -/
def compactChars : Value → List Char
  | .array items => '[' :: compactItems items ++ [']']
  | .object members => '\x7b' :: compactMembers members ++ ['\x7d']
  | v => v.atomText

/-- Items with commas between them. -/
def compactItems : List Value → List Char
  | [] => []
  | [v] => v.compactChars
  | v :: rest => v.compactChars ++ ',' :: compactItems rest

/-- Members with commas between them. -/
def compactMembers : List (String × Value) → List Char
  | [] => []
  | [(k, v)] => quote k ++ ':' :: v.compactChars
  | (k, v) :: rest => quote k ++ ':' :: v.compactChars ++ ',' :: compactMembers rest

end

/-- The text of a value without any blanks. -/
def compact (v : Value) : String := String.ofList v.compactChars

/-! ### With lines -/

/-- The beginning of a line at the given depth. -/
def newLine (depth : Nat) : List Char :=
  '\n' :: List.replicate (2 * depth) ' '

mutual

/-- The text of a value inside `depth` containers. Empty containers stay on their line. -/
def prettyChars (depth : Nat) : Value → List Char
  | .array [] => ['[', ']']
  | .array (v :: rest) => '[' :: prettyItems (depth + 1) (v :: rest) ++ newLine depth ++ [']']
  | .object [] => ['\x7b', '\x7d']
  | .object (m :: rest) =>
    '\x7b' :: prettyMembers (depth + 1) (m :: rest) ++ newLine depth ++ ['\x7d']
  | v => v.atomText

/-- Items on lines of their own with commas behind all but the last. -/
def prettyItems (depth : Nat) : List Value → List Char
  | [] => []
  | [v] => newLine depth ++ v.prettyChars depth
  | v :: rest => newLine depth ++ v.prettyChars depth ++ ',' :: prettyItems depth rest

/-- Members on lines of their own with commas behind all but the last. -/
def prettyMembers (depth : Nat) : List (String × Value) → List Char
  | [] => []
  | [(k, v)] => newLine depth ++ quote k ++ ':' :: ' ' :: v.prettyChars depth
  | (k, v) :: rest =>
    newLine depth ++ quote k ++ ':' :: ' ' :: v.prettyChars depth
      ++ ',' :: prettyMembers depth rest

end

/-- The text of a value with one member or item on each line. -/
def pretty (v : Value) : String := String.ofList (v.prettyChars 0)

end Value

end FlatDecls.Json
