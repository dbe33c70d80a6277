import PositionAutomata.Charset.Basic

/-
  The nodes of a regular expression.

  A node is a leaf, or joins the expressions of one or two other nodes, which
  it names by number. A leaf matches one value of its ranges, except that the
  empty leaf matches without reading and a terminator marks the end of an
  accepted alternative. A `Quantifier` says how often a repetition may match.
-/

namespace PositionAutomata

/-- The number of a node in its tree. -/
abbrev NodeId := Nat

/-- The symbol of an accepted alternative; a smaller one has precedence. -/
abbrev Symbol := Nat

/-- A node without children. -/
inductive Leaf where
  | codepoint (c : Nat)
  | empty
  | charset (s : Charset)
  | terminator (symbol : Symbol)
  deriving DecidableEq

namespace Leaf

/-- The values that the leaf reads. -/
def ranges : Leaf → List Range
  | codepoint c => [.single c]
  | empty => []
  | charset s => s.ranges
  | terminator _ => []

/-- The symbol of a terminator. -/
def symbol? : Leaf → Option Symbol
  | terminator symbol => some symbol
  | _ => none

/-- Whether the leaf is the empty one. -/
def isEmpty (l : Leaf) : Bool := l = .empty

end Leaf

/-- How often a repetition may match. A maximum that is not positive stands for
no bound. -/
structure Quantifier where
  min : Int
  max : Int
  lazy : Bool
  deriving DecidableEq

namespace Quantifier

/-- The maximum that is written for "no bound". -/
def unbounded : Int := -1

/-- Any number of iterations. -/
def star : Quantifier := ⟨0, unbounded, false⟩

/-- At least one iteration. -/
def plus : Quantifier := ⟨1, unbounded, false⟩

/-- One iteration or none. -/
def optional : Quantifier := ⟨0, 1, false⟩

/-- Whether any number of iterations is allowed above the minimum. -/
def isUnbounded (q : Quantifier) : Bool := q.max ≤ 0

/-- Whether more than one iteration is allowed. -/
def canRepeat (q : Quantifier) : Bool := q.isUnbounded || 1 < q.max

/-- Whether no iteration at all is allowed. -/
def canSkip (q : Quantifier) : Bool := q.min ≤ 0

/-- A bounded repetition needs a minimum up to its maximum. -/
def isValid (q : Quantifier) : Bool := q.isUnbounded || q.min ≤ q.max

/-- Number of iterations that must match. -/
def required (q : Quantifier) : Nat := q.min.toNat

end Quantifier

/-- A capture group. -/
structure Group where
  number : Nat
  name : Option String
  deriving DecidableEq

/-- A node, its children given by their numbers. -/
inductive Node where
  | leaf (l : Leaf)
  | concat (left right : NodeId)
  | alternation (left right : NodeId)
  | repetition (inner : NodeId) (q : Quantifier)
  | capture (inner : NodeId) (g : Group)
  deriving DecidableEq

namespace Node

/-- The numbers of the nodes right below. -/
def children : Node → List NodeId
  | leaf _ => []
  | concat l r => [l, r]
  | alternation l r => [l, r]
  | repetition e _ => [e]
  | capture e _ => [e]

/-- The leaf that the node is. -/
def leaf? : Node → Option Leaf
  | leaf l => some l
  | _ => none

/-- The values that the node itself reads. -/
def ranges (n : Node) : List Range := n.leaf?.elim [] Leaf.ranges

end Node

end PositionAutomata
