import PositionAutomata.Text.Category

/-
  Places in a text and the spans between them.

  A place is a line and a column, both counted from zero. Reading a character
  moves the place: a line feed to the next line, a tab to the next multiple of
  eight, another control character not at all and any other character by one
  column. A span knows where it starts, where its last character starts and
  where it stops.
-/

namespace PositionAutomata

/-- A line and a column. -/
structure Place where
  line : Nat
  column : Nat
  deriving DecidableEq

namespace Place

/-- Columns between two tab stops. -/
def tabWidth : Nat := 8

/-- Whether a place comes before another. -/
def before (p q : Place) : Bool := p.line < q.line || (p.line = q.line && p.column < q.column)

/-- The place after a character. -/
def after (p : Place) (c : Char) : Place :=
  if c = '\n' then ⟨p.line + 1, 0⟩
  else if c = '\t' then ⟨p.line, (p.column / tabWidth + 1) * tabWidth⟩
  else if Text.isControl c then p
  else ⟨p.line, p.column + 1⟩

/-- The start of a text. -/
def origin : Place := ⟨0, 0⟩

end Place

/-- A stretch of text. -/
structure Span where
  start : Place
  last : Place
  stop : Place
  deriving DecidableEq

namespace Span

/-- The span of no character at a place. -/
def ofPlace (p : Place) : Span := ⟨p, p, p⟩

/-- The span at the start of a text. -/
def origin : Span := .ofPlace .origin

/-- The span with one more character. -/
def push (s : Span) (c : Char) : Span := { s with last := s.stop, stop := s.stop.after c }

/-- The span of no character where this one stops. -/
def clear (s : Span) : Span := .ofPlace s.stop

/-- The span up to where another one stops, unless that is no later. -/
def append (s t : Span) : Span :=
  if s.last.before t.last && s.stop.before t.stop then { s with last := t.last, stop := t.stop }
  else s

/-- The span with all characters of a text. -/
def pushAll (s : Span) (cs : List Char) : Span := cs.foldl push s

@[simp] theorem start_push (s : Span) (c : Char) : (s.push c).start = s.start := rfl

@[simp] theorem start_append (s t : Span) : (s.append t).start = s.start := by
  unfold append; split <;> rfl

end Span

end PositionAutomata
