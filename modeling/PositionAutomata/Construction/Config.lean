import PositionAutomata.Tree.Copy
import PositionAutomata.Analysis.Basic

/-
  What an automaton is built from.

  The tree is copied, and a terminator is added after the whole expression or,
  in a lexer, after each alternative at the root; the number of the alternative
  is its symbol. The copy is what is analysed, so the given tree stays as it is.
-/

namespace PositionAutomata

/-- Options of the construction. -/
structure Config where
  /-- Each alternative at the root has a symbol of its own. -/
  lexer : Bool := false
  /-- States carry the events of capture groups. -/
  captures : Bool := true
  /-- Lazy repetitions count as such; otherwise they count as greedy ones. -/
  lazy : Bool := true
  /-- Bounded repetitions are written out. -/
  expand : Bool := true
  /-- Transitions that cannot lead to an accepting state are removed. -/
  prune : Bool := true
  /-- Transitions by which an accepting state would go on with a lazy repetition
  are removed. -/
  trim : Bool := true
  deriving DecidableEq

namespace Config

/-- Adds a copy of an expression. -/
def copy (c : Config) (e : Expr NodeId) : Tree.PartialStep NodeId :=
  if c.expand then e.expand else e.copy

/-- Adds a copy of an expression, and a terminator after it. -/
def terminate (c : Config) (e : Expr NodeId) (symbol : Symbol) : Tree.PartialStep NodeId := do
  let id ← c.copy e
  Tree.concat id (← Tree.leaf (.terminator symbol))

/-- The copy of a tree with its terminators. -/
def augment (c : Config) (t : Tree) : Except Failure Tree := do
  let e ← t.rootExpr
  if c.lexer then
    if e.isAlternation then
      Tree.build do Tree.anyOf (← e.alternatives.zipIdx.mapM fun (e, i) => c.terminate e i)
    else throw .rootNotAlternation
  else Tree.build (c.terminate e 0)

/-- The analysis of the copy of a tree. -/
def analyze (c : Config) (t : Tree) : Except Failure Analysis := do
  let t ← c.augment t
  return .ofExpr t (← t.rootExpr) c.lazy c.captures

end Config

end PositionAutomata
