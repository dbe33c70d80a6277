import PositionAutomata.Charset.Normal

/-
  Short text for a list of ranges, as it stands on the edges of a drawing.

  Anchors come first. The code points follow in brackets, or bare if they are
  one plain character; they are given by what they lack, after a `^`, when that
  takes fewer ranges. A text of more than `Label.maxLength` characters is cut.
-/

namespace PositionAutomata.Label

/-- Greatest length of a list of code points before it is cut. -/
def maxLength : Nat := 16

/-- Ranges in normal form, or what they lack if that is shorter. -/
def body (rs : List Range) : List Char :=
  let lacking := Range.complement rs
  if lacking.isEmpty then ['.']
  else if lacking.length < rs.length then '^' :: lacking.flatMap Range.chars
  else rs.flatMap Range.chars

/-- Puts a body in brackets, cut if it is too long. One character stays bare
unless it could be read as a sign. -/
def bracket (cs : List Char) : List Char :=
  if maxLength < cs.length then '[' :: cs.take maxLength ++ ['.', '.', '.', ']']
  else if 1 < cs.length || cs = ['.'] || cs = ['^'] then '[' :: cs ++ [']']
  else cs

/-- The text of a list of ranges. -/
def chars (rs : List Range) : List Char :=
  let codepoints := rs.filter fun r => !r.isAnchor
  (rs.filter Range.isAnchor).flatMap Range.chars ++
    if codepoints.isEmpty then [] else bracket (body (Range.normalize codepoints))

end PositionAutomata.Label
