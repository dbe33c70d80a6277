import PositionAutomata.Charset.Alphabet
import PositionAutomata.Analysis.Laziness
import PositionAutomata.Analysis.Events

/-
  The analysis of a tree: all tables that an automaton is made from.

  `Analysis.ofExpr` computes them from the expression at the root. The tables
  answer for every number; the functions at the end of this file are for callers
  who do not know which positions and nodes there are, and fail at the first one
  that is unknown.
-/

namespace PositionAutomata

/-- A tree, the expression at its root and its tables. -/
structure Analysis where
  tree : Tree
  expr : Expr NodeId
  positions : Positions
  ends : Array Ends
  follow : Follow
  alphabet : Alphabet
  laziness : Laziness
  events : Events

namespace Analysis

/-- The ends of the nodes of an expression of a tree with `size` nodes. -/
def endsTable (size : Nat) (e : Expr (NodeId × Ends)) : Array Ends :=
  e.tags.foldl (fun table (id, ends) => table.setIfInBounds id ends) (Array.replicate size .none)

/-- The analysis of a tree whose root is the expression. Lazy repetitions and
capture groups count only if asked. -/
def ofExpr (t : Tree) (e : Expr NodeId) (lazy captures : Bool) : Analysis :=
  let ps := Positions.ofExpr t.size e
  let solved := e.solve ps.nodePosition?
  { tree := t
    expr := e
    positions := ps
    ends := endsTable t.size solved
    follow := .ofExpr ps.size solved
    alphabet := .ofRanges (ps.occurrences.toList.flatMap Occurrence.ranges)
    laziness := if lazy then .ofExpr ps e else .greedy ps
    events := if captures then .ofExpr ps solved else .none ps }

/-- The analysis of a tree as it is. -/
def ofTree (t : Tree) : Except Failure Analysis := return ofExpr t (← t.rootExpr) true true

/-- The ends of a node. -/
def endsOf (a : Analysis) (id : NodeId) : Ends := a.ends[id]?.getD .none

/-! ## Answers to callers -/

/-- The occurrence at a position. -/
def occurrence (a : Analysis) (p : Position) : Except Failure Occurrence :=
  match a.positions.get? p with
  | some o => .ok o
  | none => .error (.unknownPosition p)

/-- A value that is known only if all positions of a set are. -/
def known {α : Type} (a : Analysis) (s : SortedSet) (value : α) : Except Failure α :=
  match s.toList.find? fun p => (a.positions.get? p).isNone with
  | none => .ok value
  | some p => .error (.unknownPosition p)

/-- The positions that can follow one of a set. -/
def followers (a : Analysis) (s : SortedSet) : Except Failure SortedSet :=
  a.known s (a.follow.afterAny s)

/-- The symbol that a set of positions accepts. -/
def accept (a : Analysis) (s : SortedSet) : Except Failure (Option Symbol) :=
  a.known s (a.positions.accept s)

/-- The lazy positions of `next` when it is reached from `group` and `current`
are those that are lazy now. -/
def contagion (a : Analysis) (group next current : SortedSet) : Except Failure SortedSet :=
  a.known (a.laziness.sources group current) (a.laziness.spread a.follow group next current)

/-- The ends of a node. -/
def nodeEnds (a : Analysis) (id : NodeId) : Except Failure Ends :=
  match a.ends[id]? with
  | some ends => .ok ends
  | none => .error (.unknownNode id)

end Analysis

end PositionAutomata
