import PositionAutomata.Analysis.Follow

/-
  Lazy positions.

  A position is inherently lazy when it lies inside a lazy repetition; the
  innermost one is its parent. Where a leaf occurs several times, its position
  takes the parent of its first occurrence inside a lazy repetition. While a
  text is read laziness spreads: a position reached from a lazy one is lazy.
-/

namespace PositionAutomata

namespace Expr

/-- The expression, each node tagged also with the innermost lazy repetition around it;
`parent` is that around the expression. A lazy repetition is around itself. -/
def withLazyParents (parent : Option NodeId) : Expr NodeId → Expr (NodeId × Option NodeId)
  | leaf id l => leaf (id, parent) l
  | concat id l r => concat (id, parent) (l.withLazyParents parent) (r.withLazyParents parent)
  | alternation id l r =>
    alternation (id, parent) (l.withLazyParents parent) (r.withLazyParents parent)
  | repetition id q e =>
    let parent := if q.lazy then some id else parent
    repetition (id, parent) q (e.withLazyParents parent)
  | capture id g e => capture (id, parent) g (e.withLazyParents parent)

/-- The leaves inside lazy repetitions, each with the innermost one, from left to right. -/
def lazyLeaves (e : Expr NodeId) : List (NodeId × NodeId) :=
  (e.withLazyParents none).leaves.filterMap fun ((id, parent), _) => parent.map (id, ·)

end Expr

/-- The parents of the lazy positions. -/
structure Laziness where
  parents : Array (Option NodeId)

namespace Laziness

/-- No position is lazy. -/
def greedy (ps : Positions) : Laziness := ⟨Array.replicate ps.size none⟩

/-- The lazy positions of an expression. -/
def ofExpr (ps : Positions) (e : Expr NodeId) : Laziness :=
  ⟨Positions.gather ps.size none (fun kept parent => kept.or (some parent)) <|
    e.lazyLeaves.filterMap fun (leaf, parent) => (ps.nodePosition? leaf).map (·, parent)⟩

/-- The innermost lazy repetition around a position. -/
def parent? (l : Laziness) (p : Position) : Option NodeId := (Positions.valueAt? l.parents p).join

/-- Whether a position is inherently lazy. -/
def isLazy (l : Laziness) (p : Position) : Bool := (l.parent? p).isSome

/-- The inherently lazy positions of a set. -/
def inherent (l : Laziness) (s : SortedSet) : SortedSet := s.filter l.isLazy

/-- The positions of `group` from which laziness spreads. -/
def sources (l : Laziness) (group current : SortedSet) : SortedSet :=
  group.filter fun p => l.isLazy p || decide (p ∈ current)

/-- The positions of `next` that are lazy when it is reached from `group` and
`current` are those that are lazy now. -/
def spread (l : Laziness) (f : Follow) (group next current : SortedSet) : SortedSet :=
  l.inherent next ∪ f.afterAny (l.sources group current) ∩ next

theorem mem_spread {l : Laziness} {f : Follow} {group next current : SortedSet} {q : Position} :
    q ∈ l.spread f group next current ↔
      q ∈ next ∧ (l.isLazy q = true ∨
        ∃ p ∈ group, (l.isLazy p = true ∨ p ∈ current) ∧ q ∈ f.after p) := by
  simp only [spread, inherent, sources, SortedSet.mem_union, SortedSet.mem_inter,
    SortedSet.mem_filter, Follow.mem_afterAny, Bool.or_eq_true, decide_eq_true_eq]
  grind

end Laziness

end PositionAutomata
