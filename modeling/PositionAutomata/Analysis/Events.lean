import PositionAutomata.Analysis.Ends
import PositionAutomata.CaptureEvent

/-
  Capture events of positions.

  A capture group starts at the first positions of its expression and ends at
  its last positions. A position carries its events in the order in which their
  groups are met from the top of the expression; a set of positions carries the
  events of its members, sorted by group.
-/

namespace PositionAutomata

namespace Expr

/-- The group of an expression that is a capture, with the ends of what it holds. -/
def group? {α : Type} : Expr (α × Ends) → Option (Group × Ends)
  | capture _ g e => some (g, e.tag.2)
  | _ => none

/-- The capture groups with the ends of their expressions, outer ones first. -/
def captures {α : Type} (e : Expr (α × Ends)) : List (Group × Ends) :=
  e.subexprs.filterMap group?

end Expr

/-- The events of each position. -/
structure Events where
  lists : Array (List CaptureEvent)

namespace Events

/-- No position carries an event. -/
def none (ps : Positions) : Events := ⟨Array.replicate ps.size []⟩

/-- The events of a group, each with its position. -/
def ofGroup : Group × Ends → List (Position × CaptureEvent)
  | (g, ends) =>
    ends.first.toList.map (·, ⟨g.number, true, g.name⟩) ++
      ends.last.toList.map (·, ⟨g.number, false, g.name⟩)

/-- The events of an expression whose tags hold the ends. -/
def ofExpr {α : Type} (ps : Positions) (e : Expr (α × Ends)) : Events :=
  ⟨Positions.gather ps.size [] CaptureEvent.addNew (e.captures.flatMap ofGroup)⟩

/-- The events of a position. -/
def ofPosition (es : Events) (p : Position) : List CaptureEvent :=
  (Positions.valueAt? es.lists p).getD []

/-- The events of a set of positions, sorted by group, starts first. -/
def ofSet (es : Events) (s : SortedSet) : List CaptureEvent :=
  (CaptureEvent.distinct (s.toList.flatMap es.ofPosition)).mergeSort CaptureEvent.le

end Events

end PositionAutomata
