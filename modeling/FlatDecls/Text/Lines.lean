/-!
# Lines of a text

A text is cut at line feeds. A carriage return right before a line feed belongs to the
ending, any other carriage return to the line; a line feed at the very end closes the last
line and opens no further one. The empty text has no lines.
-/

namespace FlatDecls.Text

/-- A character before the first of some lines; without any it is a line of its own. -/
def extendFirst (c : Char) : List (List Char) → List (List Char)
  | [] => [[c]]
  | line :: rest => (c :: line) :: rest

/-- The lines of a list of characters. -/
def linesOf : List Char → List (List Char)
  | [] => []
  | '\n' :: rest => [] :: linesOf rest
  | '\r' :: '\n' :: rest => [] :: linesOf rest
  | c :: rest => extendFirst c (linesOf rest)

/-- The lines of a text. -/
def lines (s : String) : List String := (linesOf s.toList).map String.ofList

end FlatDecls.Text
