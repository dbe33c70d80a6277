import PositionAutomata.Failure
import PositionAutomata.Tree.Node

/-
  Trees as lists of numbered nodes, and the steps that build them.

  A node may stand below several parents, and nodes that no root reaches are
  allowed. In a well-formed tree the children of a node come before it. Each
  building step adds its nodes at the end and answers the number of the last.
-/

namespace PositionAutomata

/-- Numbered nodes and the number of the root. -/
structure Tree where
  nodes : Array Node
  root : Option NodeId
  deriving DecidableEq

namespace Tree

/-- The tree without nodes. -/
def empty : Tree := ⟨#[], none⟩

instance : EmptyCollection Tree := ⟨empty⟩
instance : Inhabited Tree := ⟨empty⟩

/-- Number of nodes. -/
def size (t : Tree) : Nat := t.nodes.size

/-- The node of that number. -/
def get? (t : Tree) (id : NodeId) : Option Node := t.nodes[id]?

/-- Every child comes before its parent. -/
def WellFormed (t : Tree) : Prop :=
  ∀ id n, t.get? id = some n → ∀ c ∈ n.children, c < id

/-- A step that builds a part of a tree. -/
abbrev Step := StateM Tree

/-- Adds a node. -/
def place (n : Node) : Step NodeId := fun t => (t.size, { t with nodes := t.nodes.push n })

/-- Makes a node the root. -/
def setRoot (id : NodeId) : Step PUnit := fun t => ((), { t with root := some id })

/-- Adds a leaf. -/
def leaf (l : Leaf) : Step NodeId := place (.leaf l)

/-- Adds a concatenation. -/
def concat (l r : NodeId) : Step NodeId := place (.concat l r)

/-- Adds an alternation. -/
def alternation (l r : NodeId) : Step NodeId := place (.alternation l r)

/-- Adds a repetition. -/
def repetition (e : NodeId) (q : Quantifier) : Step NodeId := place (.repetition e q)

/-- Adds a capture group. -/
def capture (e : NodeId) (g : Group) : Step NodeId := place (.capture e g)

/-- Joins items from the left; no item gives the empty leaf. -/
def chain (join : NodeId → NodeId → Step NodeId) : List NodeId → Step NodeId
  | [] => leaf .empty
  | first :: rest => rest.foldlM join first

/-- The items one after the other. -/
def concatAll (items : List NodeId) : Step NodeId := chain concat items

/-- Any of the items. -/
def anyOf (items : List NodeId) : Step NodeId := chain alternation items

/-- The characters of a text, one after the other. -/
def string (cs : List Char) : Step NodeId := do
  concatAll (← cs.mapM fun c => leaf (.codepoint c.toNat))

@[simp] theorem get?_place (n : Node) (t : Tree) (id : NodeId) :
    (place n t).2.get? id = if id = t.size then some n else t.get? id := by
  simp only [place, get?, size]
  grind

@[simp] theorem size_place (n : Node) (t : Tree) : (place n t).2.size = t.size + 1 := by
  simp [place, size]

@[simp] theorem place_fst (n : Node) (t : Tree) : (place n t).1 = t.size := rfl

theorem WellFormed.place {n : Node} {t : Tree} (h : t.WellFormed)
    (hn : ∀ c ∈ n.children, c < t.size) :
    (Tree.place n t).2.WellFormed := by
  intro id m hm
  rw [get?_place] at hm
  split at hm
  · cases hm
    simp_all
  · exact h id m hm

end Tree

end PositionAutomata
