import PositionAutomata.Automaton.Reachability
import PositionAutomata.Construction.Config
import PositionAutomata.Construction.Key
import PositionAutomata.Index

/-
  Automata of trees.

  Each key becomes a state, and a step of a key a transition to the state of
  the key it leads to. From an accepting state, a transition back to the first
  positions of a lazy repetition that the state is part of would read more than
  the repetition asks for; `Analysis.trim` removes it. What is left is numbered
  in the order of its closure.
-/

namespace PositionAutomata

namespace Analysis

/-- The automaton of some expanded keys; the first is its start. -/
def synthesize (a : Analysis) (xs : List Expansion) : Automaton :=
  let index := Index.ofList (xs.map Expansion.key)
  let state (x : Expansion) : State :=
    { transitions := x.steps.filterMap fun (letter, k) => (index.get? k).map (⟨letter, ·⟩)
      accept := a.positions.accept x.key.positions
      events := a.events.ofSet x.key.positions }
  ⟨(xs.map state).toArray, 0⟩

/-- The first positions of the lazy repetitions that a key is part of. -/
def loopStarts (a : Analysis) (k : Key) : SortedSet :=
  .biUnion (k.lazy.toList.filterMap a.laziness.parent?) fun id => (a.endsOf id).first

/-- Removes the transitions by which an accepting state would go on with a lazy
repetition. The states of the automaton are those of the keys. -/
def trim (a : Analysis) (keys : Array Key) (d : Automaton) : Automaton :=
  d.filterTransitions fun q =>
    let starts := if d.isAccepting q then keys[q]?.elim ∅ a.loopStarts else ∅
    fun t => keys[t.target]?.all fun k => k.positions.isDisjoint starts

end Analysis

namespace Automaton

/-- The automaton of an analysed tree. -/
def ofAnalysis (a : Analysis) (c : Config) : Automaton :=
  let xs := a.expansions
  let synthesized := a.synthesize xs
  let pruned := if c.prune then synthesized.prune.2 else synthesized
  let keys := (xs.map Expansion.key).toArray
  let trimmed := if c.trim && c.lazy then a.trim keys pruned else pruned
  trimmed.retainReachable

/-- The automaton of a tree. -/
def ofTree (t : Tree) (c : Config := {}) : Except Failure Automaton :=
  return ofAnalysis (← c.analyze t) c

end Automaton

end PositionAutomata
