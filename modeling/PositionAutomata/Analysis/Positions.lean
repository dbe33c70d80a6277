import PositionAutomata.SortedSet
import PositionAutomata.Table
import PositionAutomata.Tree.Expr

/-
  Positions of an expression.

  Every occurrence of a leaf has a position; positions are numbered from one,
  from left to right. A leaf that occurs several times has several positions,
  and its node stands for the last of them.
-/

namespace PositionAutomata

/-- The number of an occurrence of a leaf. -/
abbrev Position := Nat

/-- An occurrence of a leaf, with the values that it reads. -/
structure Occurrence where
  node : NodeId
  leaf : Leaf
  ranges : List Range

namespace Occurrence

/-- The occurrence of a leaf. -/
def ofLeaf (node : NodeId) (leaf : Leaf) : Occurrence := ⟨node, leaf, leaf.ranges⟩

/-- Whether the leaf reads a value of the range. -/
def reads (o : Occurrence) (r : Range) : Bool := o.ranges.any fun s => s.intersects r

end Occurrence

/-- The occurrences by position, and the position of each leaf by node. -/
structure Positions where
  occurrences : Array Occurrence
  ofNode : Array (Option Position)

namespace Positions

/-- The positions of an expression of a tree with `size` nodes. -/
def ofExpr (size : Nat) (e : Expr NodeId) : Positions where
  occurrences := (e.leaves.map fun (id, l) => .ofLeaf id l).toArray
  ofNode :=
    e.leaves.zipIdx.foldl (fun table ((id, _), i) => table.setIfInBounds id (some (i + 1)))
      (Array.replicate size none)

/-- Number of positions. -/
def size (ps : Positions) : Nat := ps.occurrences.size

/-- All positions in ascending order. -/
def all (ps : Positions) : List Position := List.range' 1 ps.size

/-- The entry of a table that lists a value for each position. -/
def valueAt? {α : Type} (table : Array α) (p : Position) : Option α :=
  if p = 0 then none else table[p - 1]?

/-- A table for `size` positions, gathered from items that each name a position.
The value of a position is made from `start` by adding its items in order. -/
def gather {α β : Type} (size : Nat) (start : β) (add : β → α → β) (items : List (Position × α)) :
    Array β :=
  Table.gather size start add <|
    items.filterMap fun (p, a) => if p = 0 then none else some (p - 1, a)

/-- The occurrence at a position. -/
def get? (ps : Positions) (p : Position) : Option Occurrence := valueAt? ps.occurrences p

/-- The position of a leaf. -/
def nodePosition? (ps : Positions) (id : NodeId) : Option Position := (ps.ofNode[id]?).join

/-- The symbol of the terminator at a position. -/
def symbol? (ps : Positions) (p : Position) : Option Symbol := (ps.get? p).bind (·.leaf.symbol?)

/-- Whether the position is one of a leaf that reads a value of the range. -/
def reads (ps : Positions) (p : Position) (r : Range) : Bool := (ps.get? p).any (·.reads r)

/-- The symbol with the highest precedence among the terminators of a set. -/
def accept (ps : Positions) (s : SortedSet) : Option Symbol := (s.toList.filterMap ps.symbol?).min?

theorem valueAt?_eq_some_iff {α : Type} {table : Array α} {p : Position} {a : α} :
    valueAt? table p = some a ↔ 0 < p ∧ table[p - 1]? = some a := by
  by_cases h : p = 0 <;> simp [valueAt?, h, Nat.pos_iff_ne_zero]

/-- The value that a gathered table has for each of its positions. -/
theorem valueAt?_gather {α β : Type} (size : Nat) (start : β) (add : β → α → β)
    (items : List (Position × α)) (p : Position) :
    valueAt? (gather size start add items) p =
      if 0 < p ∧ p ≤ size then
        some ((items.filter fun i => i.1 = p).foldl (fun b i => add b i.2) start)
      else none := by
  by_cases hp : p = 0
  · simp [valueAt?, hp]
  have hpos : 0 < p := Nat.pos_of_ne_zero hp
  have hlt : p - 1 < size ↔ p ≤ size := by
    rw [Nat.lt_iff_add_one_le, Nat.sub_add_cancel hpos]
  have hitems : ∀ b,
      ((items.filterMap fun (q, a) => if q = 0 then none else some (q - 1, a)).filter
          fun x => x.1 = p - 1).foldl (fun b x => add b x.2) b =
        (items.filter fun i => i.1 = p).foldl (fun b i => add b i.2) b := by
    induction items with
    | nil => exact fun _ => rfl
    | cons i items ih =>
      obtain ⟨q, a⟩ := i
      intro b
      by_cases hq : q = 0
      · simp [hq, Ne.symm hp, ih]
      have hiff : q - 1 = p - 1 ↔ q = p :=
        ⟨fun h => Nat.sub_one_cancel (Nat.pos_of_ne_zero hq) hpos h, fun h => h ▸ rfl⟩
      by_cases h : q = p <;> simp [hq, hiff, h, hp, ih]
  simp [valueAt?, hp, gather, Table.getElem?_gather, hlt, hpos, hitems]

end Positions

end PositionAutomata
