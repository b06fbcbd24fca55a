import FlatDecls.Text.Hidden

/-!
# Quoted texts

How a message shows a text that it found: between double quotes, with a backslash before a
quote or backslash, the usual letters for tab, line feed, carriage return and NUL, and a
number in braces for every other hidden character.
-/

namespace FlatDecls.Text

/-- A number in lower-case hexadecimal digits, without leading zeros. -/
def hex (n : Nat) : String :=
  String.ofList (Nat.toDigits 16 n)

/-- One character of a quoted text. -/
def quotedChar (c : Char) : String :=
  if c = '"' then "\\\""
  else if c = '\\' then "\\\\"
  else if c = '\t' then "\\t"
  else if c = '\n' then "\\n"
  else if c = '\r' then "\\r"
  else if c.toNat = 0 then "\\0"
  else if isHidden c then "\\u\x7b" ++ hex c.toNat ++ "\x7d"
  else c.toString

/-- A text between double quotes. -/
def quoted (s : String) : String :=
  "\"" ++ String.join (s.toList.map quotedChar) ++ "\""

end FlatDecls.Text
