import PositionAutomata.CaptureEvent
import PositionAutomata.Charset.Normal

/-
  Automata.

  States are numbered and hold their transitions in order. A transition goes to
  a state by reading a value of its range, or without reading where its range is
  an anchor that holds. `State.grouped` lists the transitions of a state by
  target, targets in the order in which they first appear.
-/

namespace PositionAutomata

/-- The number of a state. -/
abbrev StateId := Nat

/-- A step to another state. -/
structure Transition where
  range : Range
  target : StateId
  deriving DecidableEq

/-- A state: its transitions, the symbol it accepts and the events that entering
it causes. -/
structure State where
  transitions : List Transition
  accept : Option Nat
  events : List CaptureEvent
  deriving DecidableEq

namespace State

/-- A state without transitions. -/
def isolated (accept : Option Nat) (events : List CaptureEvent) : State := ⟨[], accept, events⟩

instance : Inhabited State := ⟨isolated none []⟩

/-- Whether the state accepts some symbol. -/
def isAccepting (q : State) : Bool := q.accept.isSome

/-- The state with one more transition, unless it has it. -/
def addTransition (q : State) (t : Transition) : State :=
  if t ∈ q.transitions then q else { q with transitions := q.transitions ++ [t] }

/-- Where reading a code point leads. -/
def next? (q : State) (c : Nat) : Option StateId :=
  (q.transitions.find? fun t => !t.range.isAnchor && t.range.contains c).map Transition.target

/-- The targets of the transitions, in order. -/
def successors (q : State) : List StateId := q.transitions.map Transition.target

/-- The values of a list, each where it first appears. -/
def firsts (xs : List StateId) : List StateId :=
  xs.foldl (fun kept x => if x ∈ kept then kept else kept ++ [x]) []

/-- Each target with the ranges that lead to it, in normal form. -/
def grouped (q : State) : List (StateId × List Range) :=
  (firsts q.successors).map fun target =>
    (target, Range.normalize ((q.transitions.filter (·.target = target)).map Transition.range))

/-- The events that start a group. -/
def starts (q : State) : List CaptureEvent := q.events.filter (·.isStart)

/-- The events that end a group. -/
def ends (q : State) : List CaptureEvent := q.events.filter fun e => !e.isStart

end State

/-- Numbered states and the number of the one to start in. -/
structure Automaton where
  states : Array State
  start : StateId
  deriving DecidableEq

namespace Automaton

/-- The automaton with one state that accepts nothing. -/
def trivial : Automaton := ⟨#[default], 0⟩

instance : Inhabited Automaton := ⟨trivial⟩

/-- Number of states. -/
def size (a : Automaton) : Nat := a.states.size

/-- The state of that number. -/
def get? (a : Automaton) (q : StateId) : Option State := a.states[q]?

/-- Targets of the transitions of a state; a number without a state has none. -/
def successors (a : Automaton) (q : StateId) : List StateId := (a.get? q).elim [] State.successors

/-- The symbol that a state accepts. -/
def accept (a : Automaton) (q : StateId) : Option Nat := (a.get? q).bind State.accept

/-- Whether a state accepts some symbol. -/
def isAccepting (a : Automaton) (q : StateId) : Bool := (a.accept q).isSome

/-- The accepting states in ascending order. -/
def acceptingStates (a : Automaton) : List StateId := (List.range a.size).filter a.isAccepting

/-- The automaton starts in one of its states and every transition leads to one
of its states. -/
def WellFormed (a : Automaton) : Prop :=
  a.start < a.size ∧ ∀ q, ∀ r ∈ a.successors q, r < a.size

/-! ## Changes -/

/-- Adds a state and answers its number. -/
def addState (a : Automaton) (q : State) : StateId × Automaton :=
  (a.size, { a with states := a.states.push q })

/-- Adds a transition to a state; a number without a state adds none. -/
def addTransition (a : Automaton) (q : StateId) (t : Transition) : Automaton :=
  { a with states := a.states.modify q (·.addTransition t) }

/-- Keeps those transitions that satisfy a test, given with the state that they
leave. -/
def filterTransitions (a : Automaton) (keep : StateId → Transition → Bool) : Automaton :=
  { a with
    states := a.states.mapIdx fun q s => { s with transitions := s.transitions.filter (keep q) } }

/-- Number of transitions. -/
def transitionCount (a : Automaton) : Nat :=
  a.states.foldl (fun n q => n + q.transitions.length) 0

/-- Keeps the transitions of one state that satisfy a test, and answers how many
it removed. -/
def retainTransitions (a : Automaton) (q : StateId) (keep : Transition → Bool) : Nat × Automaton :=
  let kept := a.filterTransitions fun r t => r != q || keep t
  (a.transitionCount - kept.transitionCount, kept)

end Automaton

end PositionAutomata
