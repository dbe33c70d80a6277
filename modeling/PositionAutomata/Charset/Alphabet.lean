import PositionAutomata.SortedSet
import PositionAutomata.Charset.Normal

/-
  The alphabet that a list of ranges induces.

  Two code points that no range tells apart are read alike, so an automaton
  only needs one letter for each interval between bounds of the ranges. Anchors
  are kept apart: each is a letter of its own, after the others.
-/

namespace PositionAutomata

/-- The bounds of the letters: where an interval of code points starts, and
the anchors. -/
structure Alphabet where
  points : SortedSet
  anchors : SortedSet
  deriving DecidableEq

namespace Alphabet

/-- Where a range makes letters start. An anchor makes none start. -/
def bounds (r : Range) : List Nat :=
  if r.isAnchor then []
  else if r.last < maxCodepoint then [r.first, r.last + 1]
  else [r.first]

/-- The coarsest alphabet in which each range is a union of letters. -/
def ofRanges (rs : List Range) : Alphabet where
  points := .ofList (0 :: rs.flatMap bounds)
  anchors := .ofList ((rs.filter Range.isAnchor).map Range.first)

/-- The intervals from each bound to the next, the last one up to the greatest
code point. -/
def intervals : List Nat → List Range
  | [] => []
  | [first] => [.upTo first maxCodepoint]
  | first :: next :: rest => .upTo first (next - 1) :: intervals (next :: rest)

/-- The letters in ascending order, anchors last. -/
def letters (a : Alphabet) : List Range :=
  intervals a.points.toList ++ a.anchors.toList.map Range.single

theorem zero_mem_points (rs : List Range) : 0 ∈ (ofRanges rs).points := by simp [ofRanges]

end Alphabet

end PositionAutomata
