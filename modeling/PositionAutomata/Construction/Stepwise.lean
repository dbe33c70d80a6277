import Mathlib.Algebra.Group.Nat.Defs
import PositionAutomata.Construction.Worklist

/-
  The construction step by step.

  The tables of a tree can be filled node by node along the walk from the root:
  first the ends of the nodes, from the end of the walk on, then what each node
  lets follow, then the events of each group. After that states are made until
  none waits, and trimmed one by one. What a step needs of those before it is
  looked up by number, nodes and positions alike, and the first one that is
  unknown is the failure of the whole.
-/

namespace PositionAutomata

/-- The node of that number. -/
def Tree.node (t : Tree) (id : NodeId) : Except Failure Node :=
  match t.get? id with
  | some n => .ok n
  | none => .error (.unknownNode id)

/-- The occurrence at a position. -/
def Positions.occurrence (ps : Positions) (p : Position) : Except Failure Occurrence :=
  match ps.get? p with
  | some o => .ok o
  | none => .error (.unknownPosition p)

namespace Stepwise

/-- The ends that a table has for a node. -/
def endsAt (table : Array Ends) (id : NodeId) : Except Failure Ends :=
  match table[id]? with
  | some ends => .ok ends
  | none => .error (.unknownNode id)

/-- The ends of a node, given those of the nodes below it. -/
def endsOfNode (t : Tree) (ps : Positions) (table : Array Ends) (id : NodeId) :
    Except Failure Ends := do
  match ← t.node id with
  | .leaf l =>
    if l.isEmpty then return .empty
    else
      match ps.nodePosition? id with
      | some p => return .single p
      | none => throw (.unknownNode id)
  | .concat l r => return .concat (← endsAt table l) (← endsAt table r)
  | .alternation l r => return .alternation (← endsAt table l) (← endsAt table r)
  | .repetition e q => return .repetition q (← endsAt table e)
  | .capture e _ => endsAt table e

/-- Enters the ends of a node. -/
def enterEnds (t : Tree) (ps : Positions) (table : Array Ends) (id : NodeId) :
    Except Failure (Array Ends) := do
  return table.setIfInBounds id (← endsOfNode t ps table id)

/-- Adds a value to the entry of each position of a set. -/
def addAt {α β : Type} (ps : Positions) (add : β → α → β) (table : Array β) (s : SortedSet)
    (value : α) : Except Failure (Array β) :=
  s.toList.foldlM
    (fun table p => do
      let _ ← ps.occurrence p
      return table.modify (p - 1) (add · value))
    table

/-- Adds what a node lets follow: the first positions of what it reads next, after the last positions
of what it reads before. -/
def addFollowers (t : Tree) (ps : Positions) (ends : Array Ends) (sets : Array SortedSet)
    (id : NodeId) : Except Failure (Array SortedSet) := do
  match ← t.node id with
  | .concat l r =>
    let next ← endsAt ends r
    addAt ps (· ∪ ·) sets (← endsAt ends l).last next.first
  | .repetition e q =>
    if q.canRepeat then
      if (← t.node e) = .leaf .empty then return sets
      else
        let next ← endsAt ends e
        addAt ps (· ∪ ·) sets next.last next.first
    else return sets
  | _ => return sets

/-- Adds the events of a node that is a capture. -/
def addEvents (t : Tree) (ps : Positions) (ends : Array Ends) (lists : Array (List CaptureEvent))
    (id : NodeId) : Except Failure (Array (List CaptureEvent)) := do
  match ← t.node id with
  | .capture e g =>
    let inner ← endsAt ends e
    let lists ← addAt ps CaptureEvent.addNew lists inner.first ⟨g.number, true, g.name⟩
    addAt ps CaptureEvent.addNew lists inner.last ⟨g.number, false, g.name⟩
  | _ => return lists

/-- The analysis of a tree. -/
def analyze (t : Tree) (lazy captures : Bool) : Except Failure Analysis := do
  let e ← t.rootExpr
  let ps := Positions.ofExpr t.size e
  let ends ← e.tags.reverse.foldlM (enterEnds t ps) (Array.replicate t.size .none)
  let sets ← e.tags.foldlM (addFollowers t ps ends) (Array.replicate ps.size ∅)
  let noEvents := Array.replicate ps.size []
  let lists ← if captures then e.tags.foldlM (addEvents t ps ends) noEvents else pure noEvents
  return {
    tree := t
    expr := e
    positions := ps
    ends := ends
    follow := ⟨sets⟩
    alphabet := .ofRanges (ps.occurrences.toList.flatMap Occurrence.ranges)
    laziness := if lazy then .ofExpr ps e else .greedy ps
    events := ⟨lists⟩ }

/-- Turns until no state waits, so many at most. -/
def finish (a : Analysis) : Nat → Worklist → Except Failure Worklist
  | 0, w => return w
  | fuel + 1, w => if w.queue.isEmpty then return w else do finish a fuel (← w.turn a)

/-- All states, made one by one. There are at most as many as pairs of sets of positions. -/
def synthesize (a : Analysis) : Except Failure Worklist := do
  finish a (4 ^ a.positions.size) (← Worklist.start a)

/-- Adds the first positions of the innermost lazy repetition around a position. -/
def addLoopStarts (a : Analysis) (starts : SortedSet) (p : Position) : Except Failure SortedSet :=
  match a.laziness.parent? p with
  | some id => return starts ∪ (← a.nodeEnds id).first
  | none => return starts

/-- The first positions of the lazy repetitions that a key is part of. -/
def loopStarts (a : Analysis) (k : Key) : Except Failure SortedSet :=
  k.lazy.toList.foldlM (addLoopStarts a) ∅

/-- Removes the transitions by which a state, if it accepts, would go on with a lazy repetition. -/
def trimState (a : Analysis) (keys : Array Key) (d : Automaton) (q : StateId) :
    Except Failure Automaton := do
  if d.isAccepting q then
    match keys[q]? with
    | some k =>
      let starts ← loopStarts a k
      if starts.isEmpty then return d
      else
        let keep (t : Transition) := keys[t.target]?.all fun k => k.positions.isDisjoint starts
        return (d.retainTransitions q keep).2
    | none => return d
  else return d

/-- Trims the states in the order of their numbers. -/
def trim (a : Analysis) (keys : Array Key) (d : Automaton) : Except Failure Automaton :=
  (List.range d.size).foldlM (trimState a keys) d

/-- The automaton of a tree, all steps in turn. -/
def build (t : Tree) (c : Config := {}) : Except Failure Automaton := do
  let u ← c.augment t
  let a ← analyze u c.lazy c.captures
  let w ← synthesize a
  let synthesized : Automaton := ⟨w.states, 0⟩
  let pruned := if c.prune then synthesized.prune.2 else synthesized
  let trimmed ← if c.trim && c.lazy then trim a w.provenance pruned else pure pruned
  return trimmed.retainReachable

end Stepwise

end PositionAutomata
