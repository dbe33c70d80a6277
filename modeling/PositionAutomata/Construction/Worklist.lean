import PositionAutomata.Construction.Build

/-
  States made one by one.

  The states of an automaton can be made while the keys are met: a state is made
  when its key is first met and waits until its turn comes, and in its turn it
  gets its transitions, by which new states are made. Keys, numbers, states and
  those that wait are kept side by side in a worklist; every look-up fails at
  positions and nodes that are unknown.
-/

namespace PositionAutomata

/-- How far the making of states has come: the states, for each the key that it was made for, the
number of each key with its symbol, and the states that wait for their turn. -/
structure Worklist where
  states : Array State
  provenance : Array Key
  numbers : List ((Key × Option Symbol) × StateId)
  queue : List StateId

namespace Worklist

/-- No state is made yet. -/
def empty : Worklist := ⟨#[], #[], [], []⟩

/-- Makes the state of a key, which waits. -/
def insert (a : Analysis) (w : Worklist) (k : Key) (accept : Option Symbol) : Worklist where
  states := w.states.push (.isolated accept (a.events.ofSet k.positions))
  provenance := w.provenance.push k
  numbers := ((k, accept), w.states.size) :: w.numbers
  queue := w.queue ++ [w.states.size]

/-- The number of the state of a key, which is made if there is none. -/
def getOrInsert (a : Analysis) (w : Worklist) (k : Key) : Except Failure (StateId × Worklist) := do
  let accept ← a.accept k.positions
  match w.numbers.lookup (k, accept) with
  | some q => return (q, w)
  | none => return (w.states.size, w.insert a k accept)

/-- Adds the transition of a state by a letter; `k` is the key of the state. -/
def addStep (a : Analysis) (q : StateId) (k : Key) (w : Worklist) (letter : Range) :
    Except Failure Worklist := do
  let group ← a.known k.positions (k.positions.filter fun p => a.positions.reads p letter)
  if group.isEmpty then return w
  else
    let next ← a.followers group
    if next.isEmpty then return w
    else
      let lazy ← a.contagion group next k.lazy
      let (target, w) ← w.getOrInsert a ⟨next, lazy⟩
      return { w with states := w.states.modify q (·.addTransition ⟨letter, target⟩) }

/-- Adds the transitions of a state. -/
def expand (a : Analysis) (w : Worklist) (q : StateId) : Except Failure Worklist :=
  match w.provenance[q]? with
  | some k => a.alphabet.letters.foldlM (addStep a q k) w
  | none => return w

/-- The turn of the state that waits longest. -/
def turn (a : Analysis) (w : Worklist) : Except Failure Worklist :=
  match w.queue with
  | [] => return w
  | q :: queue => expand a { w with queue } q

/-- Only the start is made, and waits. -/
def start (a : Analysis) : Except Failure Worklist := do
  let first := (← a.nodeEnds a.expr.tag).first
  let (_, w) ← empty.getOrInsert a ⟨first, a.laziness.inherent first⟩
  return w

/-- The worklist after some turns. -/
def after (a : Analysis) : Nat → Except Failure Worklist
  | 0 => start a
  | n + 1 => do (← after a n).turn a

/-- The positions, lazy positions and symbols of the states. -/
def keys (w : Worklist) : List (SortedSet × SortedSet × Option Symbol) :=
  (w.provenance.toList.zip w.states.toList).map fun (k, s) => (k.positions, k.lazy, s.accept)

end Worklist

end PositionAutomata
