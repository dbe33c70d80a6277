/-
  Capture events.

  An event says that a capture group starts or ends. Two events of one group
  and one kind are the same event, whatever name they carry. A list of events
  keeps the first of those that are the same; sorted, it goes by group, starts
  before ends.
-/

namespace PositionAutomata

/-- The start or the end of a capture group. -/
structure CaptureEvent where
  group : Nat
  isStart : Bool
  name : Option String
  deriving DecidableEq

namespace CaptureEvent

/-- Whether two events are of the same group and kind. -/
def same (e f : CaptureEvent) : Bool := e.group = f.group && e.isStart = f.isStart

/-- Some events with one more, unless it is the same as one of them. -/
def addNew (kept : List CaptureEvent) (e : CaptureEvent) : List CaptureEvent :=
  if kept.any e.same then kept else kept ++ [e]

/-- The first of the events that are the same, in order. -/
def distinct (es : List CaptureEvent) : List CaptureEvent := es.foldl addNew []

/-- The order by group, starts first. -/
def le (e f : CaptureEvent) : Bool :=
  e.group < f.group || (e.group = f.group && (e.isStart || !f.isStart))

/-- The text of an event. -/
def chars (e : CaptureEvent) : List Char :=
  (if e.isStart then "start(" else "end(").toList ++ e.group.repr.toList ++
    e.name.elim [] (fun name => ", ".toList ++ name.toList) ++ [')']

end CaptureEvent

end PositionAutomata
