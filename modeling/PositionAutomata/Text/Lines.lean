/-
  The lines of a text.

  A line ends with a line feed, and a carriage return right before it belongs to
  the ending. What follows the last line feed is a line unless it is empty.
-/

namespace PositionAutomata.Text

/-- A line in reverse, without a carriage return at its end. -/
def dropReturn : List Char → List Char
  | '\r' :: line => line
  | line => line

/-- The lines of a text, given what has been read of the first one in reverse. -/
def linesFrom (line : List Char) : List Char → List (List Char)
  | [] => if line.isEmpty then [] else [line.reverse]
  | c :: rest =>
    if c = '\n' then (dropReturn line).reverse :: linesFrom [] rest else linesFrom (c :: line) rest

/-- The lines of a text. -/
def lines (cs : List Char) : List (List Char) := linesFrom [] cs

end PositionAutomata.Text
