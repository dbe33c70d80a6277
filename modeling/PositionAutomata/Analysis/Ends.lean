import PositionAutomata.Analysis.Positions

/-
  How the texts of an expression begin and end.

  The ends of an expression say whether it matches the empty text, and which
  positions can be the first and the last that a match uses. They follow the
  shape of the expression; `Expr.solve` computes them for an expression and all
  its parts at once and keeps them in the tags.
-/

namespace PositionAutomata

/-- Whether nothing is read, and what is read first and last. -/
structure Ends where
  nullable : Bool
  first : SortedSet
  last : SortedSet
  deriving DecidableEq

namespace Ends

/-- The ends of what matches nothing. -/
def none : Ends := ⟨false, ∅, ∅⟩

instance : Inhabited Ends := ⟨none⟩

/-- The ends of the empty leaf. -/
def empty : Ends := ⟨true, ∅, ∅⟩

/-- The ends of a leaf that reads. -/
def single (p : Position) : Ends := ⟨false, .singleton p, .singleton p⟩

/-- The ends of two parts one after the other. A part that matches the empty text lets
the other one be first or last. -/
def concat (l r : Ends) : Ends where
  nullable := l.nullable && r.nullable
  first := if l.nullable then l.first ∪ r.first else l.first
  last := if r.nullable then r.last ∪ l.last else r.last

/-- The ends of a choice between two parts. -/
def alternation (l r : Ends) : Ends :=
  ⟨l.nullable || r.nullable, l.first ∪ r.first, l.last ∪ r.last⟩

/-- The ends of a repeated part. -/
def repetition (q : Quantifier) (e : Ends) : Ends :=
  { e with nullable := q.canSkip || e.nullable }

end Ends

namespace Expr

/-- The ends of a leaf, given the positions of the nodes. -/
def leafEnds (position? : NodeId → Option Position) (id : NodeId) (l : Leaf) : Ends :=
  if l.isEmpty then .empty else (position? id).elim .none .single

/-- The ends of an expression, given the positions of the nodes. -/
def ends (position? : NodeId → Option Position) : Expr NodeId → Ends
  | leaf id l => leafEnds position? id l
  | concat _ l r => .concat (l.ends position?) (r.ends position?)
  | alternation _ l r => .alternation (l.ends position?) (r.ends position?)
  | repetition _ q e => .repetition q (e.ends position?)
  | capture _ _ e => e.ends position?

/-- The expression with its ends and those of its parts. -/
def solve (position? : NodeId → Option Position) : Expr NodeId → Expr (NodeId × Ends)
  | leaf id l => leaf (id, leafEnds position? id l) l
  | concat id l r =>
    let l := l.solve position?
    let r := r.solve position?
    concat (id, .concat l.tag.2 r.tag.2) l r
  | alternation id l r =>
    let l := l.solve position?
    let r := r.solve position?
    alternation (id, .alternation l.tag.2 r.tag.2) l r
  | repetition id q e =>
    let e := e.solve position?
    repetition (id, .repetition q e.tag.2) q e
  | capture id g e =>
    let e := e.solve position?
    capture (id, e.tag.2) g e

theorem tag_solve (position? : NodeId → Option Position) (e : Expr NodeId) :
    (e.solve position?).tag = (e.tag, e.ends position?) := by
  induction e with
  | leaf id l => rfl
  | concat id l r ihl ihr => simp [solve, ends, ihl, ihr]
  | alternation id l r ihl ihr => simp [solve, ends, ihl, ihr]
  | repetition id q e ih => simp [solve, ends, ih]
  | capture id g e ih => simp [solve, ends, ih]

end Expr

end PositionAutomata
