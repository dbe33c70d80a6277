import PositionAutomata.Analysis.Ends

/-
  Which position can come right after which.

  A position follows another where the second ends and the first begins parts of
  the expression that are read one after the other: the two parts of a
  concatenation, or two iterations of a repetition. Each such place is a link
  from the last positions of one part to the first positions of the other.
-/

namespace PositionAutomata

/-- A place where what is read goes on from one part to another. -/
structure Link where
  sources : SortedSet
  targets : SortedSet

namespace Expr

/-- The link of the topmost node of an expression whose tags hold the ends. -/
def link? {α : Type} : Expr (α × Ends) → Option Link
  | concat _ l r => some ⟨l.tag.2.last, r.tag.2.first⟩
  | repetition _ q e => if q.canRepeat then some ⟨e.tag.2.last, e.tag.2.first⟩ else none
  | _ => none

/-- The links of an expression whose tags hold the ends. -/
def links {α : Type} (e : Expr (α × Ends)) : List Link := e.subexprs.filterMap link?

end Expr

/-- The positions that can follow each position. -/
structure Follow where
  sets : Array SortedSet

namespace Follow

/-- The table for `size` positions in which the targets of each link follow its
sources. -/
def ofLinks (size : Nat) (links : List Link) : Follow :=
  ⟨Positions.gather size ∅ (· ∪ ·) <|
    links.flatMap fun link => link.sources.toList.map (·, link.targets)⟩

/-- The table of an expression with `size` positions. -/
def ofExpr {α : Type} (size : Nat) (e : Expr (α × Ends)) : Follow := ofLinks size e.links

/-- The positions that can follow a position. -/
def after (f : Follow) (p : Position) : SortedSet := (Positions.valueAt? f.sets p).getD ∅

/-- The positions that can follow one of a set. -/
def afterAny (f : Follow) (s : SortedSet) : SortedSet := .biUnion s.toList f.after

theorem mem_after_ofLinks {size : Nat} {links : List Link} {p q : Position} :
    q ∈ (ofLinks size links).after p ↔
      (0 < p ∧ p ≤ size) ∧ ∃ link ∈ links, p ∈ link.sources ∧ q ∈ link.targets := by
  rw [after, ofLinks, Positions.valueAt?_gather]
  split
  next h =>
    rw [Option.getD_some, SortedSet.mem_foldl_union]
    simp only [SortedSet.not_mem_empty, false_or, List.mem_filter, List.mem_flatMap, List.mem_map,
      decide_eq_true_eq, h, and_self, true_and]
    constructor
    · rintro ⟨i, ⟨⟨link, hl, s, hs, rfl⟩, rfl⟩, hq⟩
      exact ⟨link, hl, hs, hq⟩
    · rintro ⟨link, hl, hp, hq⟩
      exact ⟨(p, link.targets), ⟨⟨link, hl, p, hp, rfl⟩, rfl⟩, hq⟩
  next h => simp [h]

theorem mem_afterAny {f : Follow} {s : SortedSet} {q : Position} :
    q ∈ f.afterAny s ↔ ∃ p ∈ s, q ∈ f.after p :=
  SortedSet.mem_biUnion

end Follow

end PositionAutomata
