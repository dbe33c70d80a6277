import PositionAutomata.Charset.Range

/-
  Lists of ranges: normal form and complement.

  `Range.normalize` sorts a list of ranges and joins those that touch, so that
  the result ascends and a value is missing between each two neighbours. The
  joining is one forward scan which carries the range it is growing.
  `Range.complement` is what the code points lack; anchors do not count.
-/

namespace PositionAutomata.Range

/-- Joins `current` with the ranges that follow as long as they touch. -/
def coalesceFrom (current : Range) : List Range → List Range
  | [] => [current]
  | next :: rest =>
    if current.touches next then coalesceFrom (current.hull next) rest
    else current :: coalesceFrom next rest

/-- The same values as ascending ranges that do not touch. -/
def normalize (rs : List Range) : List Range :=
  match rs.mergeSort le with
  | [] => []
  | r :: rest => coalesceFrom r rest

/-- The code points from `next` on that no range of an ascending list holds. -/
def complementFrom (next : Nat) : List Range → List Range
  | [] => [upTo next maxCodepoint]
  | r :: rest =>
    (if next < r.first then [upTo next (r.first - 1)] else []) ++
      (if r.last < maxCodepoint then complementFrom (max next (r.last + 1)) rest else [])

/-- The code points that no range of the list holds. -/
def complement (rs : List Range) : List Range :=
  complementFrom 0 (normalize (rs.filter fun r => !r.isAnchor))

end PositionAutomata.Range
