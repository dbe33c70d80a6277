import PositionAutomata.Automaton.Matching

/-
  Paths of accepted texts and the captures along them.

  A path is a list of states, each with the number of characters read before it
  was entered. `Automaton.trace` finds the first path, in depth-first order,
  that reads the whole text and ends in a state with the symbol of the run. The
  events of the states on the path are the captures of the text.
-/

namespace PositionAutomata.Automaton

/-- Offsets with states are ordered by offset, then by state. -/
instance : Ord (Nat × StateId) := lexOrd

/-- Where a transition leads after the first `i` characters of a text. -/
def move? (text : Array Char) (i : Nat) (t : Transition) : Option (Nat × StateId) :=
  if t.range.isAnchor then if t.range.holdsAt text i then some (i, t.target) else none
  else
    match text[i]? with
    | some c => if t.range.contains c.toNat then some (i + 1, t.target) else none
    | none => none

/-- Offsets in a text with states, and the moves between them. -/
def moveGraph (a : Automaton) (text : Array Char) : Graph (Nat × StateId) where
  isNode v := v.1 ≤ text.size && v.2 < a.size
  next v := ((a.get? v.2).elim [] State.transitions).filterMap (move? text v.1)
  finite :=
    ⟨(List.range (text.size + 1)).flatMap fun i => (List.range a.size).map (i, ·), fun v h => by
      simp only [Bool.and_eq_true, decide_eq_true_eq] at h
      simp only [List.mem_flatMap, List.mem_range, List.mem_map]
      exact ⟨v.1, by omega, v.2, h.2, rfl⟩⟩

/-- The path of an accepted text. -/
def trace (a : Automaton) (text : List Char) : Option (List (Nat × StateId)) := do
  let symbol ← a.run text
  let array := text.toArray
  (a.moveGraph array).findPath (0, a.start) fun (i, q) =>
    i = array.size && a.accept q = some symbol

/-- The events along the path of an accepted text, each with the number of
characters read before it. -/
def captures (a : Automaton) (text : List Char) : Option (List (Nat × CaptureEvent)) :=
  (a.trace text).map fun path =>
    path.flatMap fun (i, q) => ((a.get? q).elim [] State.events).map (i, ·)

end PositionAutomata.Automaton
