import PositionAutomata.Tree.Expr

/-
  Copies of expressions at the end of a tree.

  `Expr.copy` repeats an expression node by node, so that shared nodes are no
  longer shared. `Expr.expand` also writes out bounded repetitions: a count as
  that many copies, a range of counts as an alternation of the counts or, when
  it is lazy, as the required copies followed by optional ones, and a minimum
  without maximum as all but one of the required copies followed by the last
  one repeated. Both fail at a repetition whose minimum is above its maximum;
  what they added before stays.
-/

namespace PositionAutomata

/-- A step that may fail, what it added so far being kept. -/
abbrev Tree.PartialStep := ExceptT Failure Tree.Step

namespace Quantifier

/-- Whether a repetition has to be written out: it is bounded above one, or
requires more than one iteration. -/
def isCounted (q : Quantifier) : Bool := if q.isUnbounded then 1 < q.min else 1 < q.max

/-- How many different counts a bounded repetition allows. -/
def choices (q : Quantifier) : Nat := q.max.toNat + 1 - q.required

end Quantifier

namespace Expr

/-- The answers of a step taken `n` times. -/
def times {α : Type} (step : Tree.PartialStep α) : Nat → Tree.PartialStep (List α)
  | 0 => return []
  | n + 1 => return (← step) :: (← times step n)

/-- The answers of `n` steps that are numbered from `first` on. The numbers are not listed
beforehand, so that a step that fails is the last one looked at, however many follow it. -/
def timesFrom {α : Type} (step : Nat → Tree.PartialStep α) (first : Nat) :
    Nat → Tree.PartialStep (List α)
  | 0 => return []
  | n + 1 => return (← step first) :: (← timesFrom step (first + 1) n)

/-- Fails at a repetition whose minimum is above its maximum. -/
def checkBounds (id : NodeId) (q : Quantifier) : Tree.PartialStep PUnit :=
  if q.isValid then pure () else throw (.invalidRepetition id)

/-- Writes out a counted repetition of what `copy` adds. -/
def unroll (q : Quantifier) (copy : Tree.PartialStep NodeId) : Tree.PartialStep NodeId := do
  if q.isUnbounded then
    let items ← times copy (q.required - 1)
    let last ← Tree.repetition (← copy) ⟨1, Quantifier.unbounded, q.lazy⟩
    Tree.concatAll (items ++ [last])
  else if q.min = q.max then
    Tree.concatAll (← times copy q.required)
  else if q.lazy then
    let items ← times copy q.required
    let rest ← times (do Tree.repetition (← copy) ⟨0, 1, true⟩) (q.max.toNat - q.required)
    Tree.concatAll (items ++ rest)
  else
    Tree.anyOf (← timesFrom (fun n => do Tree.concatAll (← times copy n)) q.required q.choices)

/-- Adds a copy of the expression. -/
def copy : Expr NodeId → Tree.PartialStep NodeId
  | leaf _ l => Tree.leaf l
  | concat _ l r => do Tree.concat (← l.copy) (← r.copy)
  | alternation _ l r => do Tree.alternation (← l.copy) (← r.copy)
  | repetition id q e => do
    checkBounds id q
    Tree.repetition (← e.copy) q
  | capture _ g e => do Tree.capture (← e.copy) g

/-- Adds a copy of the expression in which bounded repetitions are written out. -/
def expand : Expr NodeId → Tree.PartialStep NodeId
  | leaf _ l => Tree.leaf l
  | concat _ l r => do Tree.concat (← l.expand) (← r.expand)
  | alternation _ l r => do Tree.alternation (← l.expand) (← r.expand)
  | repetition id q e => do
    checkBounds id q
    if q.isCounted && !e.isEmptyLeaf then unroll q e.expand
    else Tree.repetition (← e.expand) q
  | capture _ g e => do Tree.capture (← e.expand) g

end Expr

namespace Tree

/-- The tree that a step builds from nothing, with the node it answers as root. -/
def build (step : PartialStep NodeId) : Except Failure Tree :=
  match step.run empty with
  | (.ok id, t) => .ok { t with root := some id }
  | (.error e, _) => .error e

/-- Adds a copy of what is below a node of `t`. -/
def copyInto (t : Tree) (id : NodeId) : PartialStep NodeId := do (← t.expr id).copy

/-- Adds a copy of what is below a node of `t`, bounded repetitions written out. -/
def expandInto (t : Tree) (id : NodeId) : PartialStep NodeId := do (← t.expr id).expand

/-- The tree without sharing and without unreachable nodes. -/
def deepCopy (t : Tree) : Except Failure Tree := do
  let e ← t.rootExpr
  build e.copy

/-- The tree with its bounded repetitions written out. -/
def expandRepetitions (t : Tree) : Except Failure Tree := do
  let e ← t.rootExpr
  build e.expand

end Tree

end PositionAutomata
