import PositionAutomata.Tree.Basic

/-
  Expressions: what a node of a tree unfolds to.

  In an expression every occurrence of a shared node stands on its own. Each
  node carries a tag; `Tree.expr` unfolds a node into an expression tagged with
  node numbers, and fails only where a child is missing or does not come before
  its parent (`expr_of_get?`, `expr_isOk`). All that is computed of a tree is
  computed by recursion on expressions. The expressions of all nodes are made in
  one pass, those of the children being parts of those of the parents, so a part
  that a recursion does not enter costs nothing, however often it is shared.
-/

namespace PositionAutomata

/-- An expression whose nodes are tagged with values of `α`. -/
inductive Expr (α : Type) where
  | leaf (tag : α) (l : Leaf)
  | concat (tag : α) (left right : Expr α)
  | alternation (tag : α) (left right : Expr α)
  | repetition (tag : α) (q : Quantifier) (inner : Expr α)
  | capture (tag : α) (g : Group) (inner : Expr α)
  deriving DecidableEq

namespace Expr

variable {α β : Type}

/-- The tag of the topmost node. -/
def tag : Expr α → α
  | leaf a _ => a
  | concat a _ _ => a
  | alternation a _ _ => a
  | repetition a _ _ => a
  | capture a _ _ => a

/-- The same expression with other tags. -/
def map (f : α → β) : Expr α → Expr β
  | leaf a l => leaf (f a) l
  | concat a l r => concat (f a) (l.map f) (r.map f)
  | alternation a l r => alternation (f a) (l.map f) (r.map f)
  | repetition a q e => repetition (f a) q (e.map f)
  | capture a g e => capture (f a) g (e.map f)

/-- Whether the expression is the empty leaf. -/
def isEmptyLeaf : Expr α → Bool
  | leaf _ l => l.isEmpty
  | _ => false

/-- The expression and all those inside it, each before those inside it, and then
`rest`. -/
def subexprsOnto (rest : List (Expr α)) : Expr α → List (Expr α)
  | leaf a l => leaf a l :: rest
  | concat a l r => concat a l r :: l.subexprsOnto (r.subexprsOnto rest)
  | alternation a l r => alternation a l r :: l.subexprsOnto (r.subexprsOnto rest)
  | repetition a q e => repetition a q e :: e.subexprsOnto rest
  | capture a g e => capture a g e :: e.subexprsOnto rest

/-- The expression and all those inside it, each before those inside it. -/
def subexprs (e : Expr α) : List (Expr α) := e.subexprsOnto []

/-- The tags of an expression and its parts, each before those inside it. -/
def tags (e : Expr α) : List α := e.subexprs.map tag

/-- The tag and the leaf of an expression that is one. -/
def leaf? : Expr α → Option (α × Leaf)
  | leaf a l => some (a, l)
  | _ => none

/-- The leaves from left to right, with their tags. -/
def leaves (e : Expr α) : List (α × Leaf) := e.subexprs.filterMap leaf?

/-- The alternatives of an alternation, nested ones flattened. -/
def alternatives : Expr α → List (Expr α)
  | alternation _ l r => l.alternatives ++ r.alternatives
  | e => [e]

/-- Whether the expression is an alternation. -/
def isAlternation : Expr α → Bool
  | alternation _ _ _ => true
  | _ => false

/-- A node met on a walk: its parent, its own tag, its rank among the children
of the parent and its depth. -/
structure Visit (α : Type) where
  parent : Option α
  node : α
  rank : Nat
  depth : Nat
  deriving DecidableEq

/-- The walk through an expression, parents first, that does not go below the
nodes that `stop` selects. -/
def walk (stop : α → Bool) (parent : Option α) (rank depth : Nat) : Expr α → List (Visit α)
  | leaf a _ => [⟨parent, a, rank, depth⟩]
  | concat a l r =>
    ⟨parent, a, rank, depth⟩ ::
      if stop a then []
      else l.walk stop (some a) 0 (depth + 1) ++ r.walk stop (some a) 1 (depth + 1)
  | alternation a l r =>
    ⟨parent, a, rank, depth⟩ ::
      if stop a then []
      else l.walk stop (some a) 0 (depth + 1) ++ r.walk stop (some a) 1 (depth + 1)
  | repetition a _ e =>
    ⟨parent, a, rank, depth⟩ :: if stop a then [] else e.walk stop (some a) 0 (depth + 1)
  | capture a _ e =>
    ⟨parent, a, rank, depth⟩ :: if stop a then [] else e.walk stop (some a) 0 (depth + 1)

/-- The walk from the top. -/
def visits (stop : α → Bool) (e : Expr α) : List (Visit α) := e.walk stop none 0 0

@[simp] theorem tag_leaf (a : α) (l : Leaf) : (leaf a l).tag = a := rfl

@[simp] theorem tag_concat (a : α) (l r : Expr α) : (concat a l r).tag = a := rfl

@[simp] theorem tag_alternation (a : α) (l r : Expr α) : (alternation a l r).tag = a := rfl

@[simp] theorem tag_repetition (a : α) (q : Quantifier) (e : Expr α) :
    (repetition a q e).tag = a := rfl

@[simp] theorem tag_capture (a : α) (g : Group) (e : Expr α) : (capture a g e).tag = a := rfl

theorem subexprsOnto_eq_append (e : Expr α) (rest : List (Expr α)) :
    e.subexprsOnto rest = e.subexprs ++ rest := by
  induction e generalizing rest with
  | leaf a l => rfl
  | concat a l r ihl ihr =>
    change _ :: l.subexprsOnto (r.subexprsOnto rest) =
      _ :: l.subexprsOnto (r.subexprsOnto []) ++ rest
    simp [ihl, ihr]
  | alternation a l r ihl ihr =>
    change _ :: l.subexprsOnto (r.subexprsOnto rest) =
      _ :: l.subexprsOnto (r.subexprsOnto []) ++ rest
    simp [ihl, ihr]
  | repetition a q e ih => exact congrArg (_ :: ·) (ih rest)
  | capture a g e ih => exact congrArg (_ :: ·) (ih rest)

@[simp] theorem subexprs_leaf (a : α) (l : Leaf) : (leaf a l).subexprs = [leaf a l] := rfl

@[simp] theorem subexprs_concat (a : α) (l r : Expr α) :
    (concat a l r).subexprs = concat a l r :: (l.subexprs ++ r.subexprs) :=
  congrArg (_ :: ·) (subexprsOnto_eq_append l r.subexprs)

@[simp] theorem subexprs_alternation (a : α) (l r : Expr α) :
    (alternation a l r).subexprs = alternation a l r :: (l.subexprs ++ r.subexprs) :=
  congrArg (_ :: ·) (subexprsOnto_eq_append l r.subexprs)

@[simp] theorem subexprs_repetition (a : α) (q : Quantifier) (e : Expr α) :
    (repetition a q e).subexprs = repetition a q e :: e.subexprs := rfl

@[simp] theorem subexprs_capture (a : α) (g : Group) (e : Expr α) :
    (capture a g e).subexprs = capture a g e :: e.subexprs := rfl

@[simp] theorem leaves_leaf (a : α) (l : Leaf) : (leaf a l).leaves = [(a, l)] := rfl

@[simp] theorem leaves_concat (a : α) (l r : Expr α) :
    (concat a l r).leaves = l.leaves ++ r.leaves := by
  simp [leaves, leaf?, List.filterMap_cons]

@[simp] theorem leaves_alternation (a : α) (l r : Expr α) :
    (alternation a l r).leaves = l.leaves ++ r.leaves := by
  simp [leaves, leaf?, List.filterMap_cons]

@[simp] theorem leaves_repetition (a : α) (q : Quantifier) (e : Expr α) :
    (repetition a q e).leaves = e.leaves := rfl

@[simp] theorem leaves_capture (a : α) (g : Group) (e : Expr α) :
    (capture a g e).leaves = e.leaves := rfl

theorem mem_subexprs_self (e : Expr α) : e ∈ e.subexprs := by cases e <;> simp

theorem tag_map (f : α → β) (e : Expr α) : (e.map f).tag = f e.tag := by cases e <;> rfl

theorem leaves_map (f : α → β) (e : Expr α) :
    (e.map f).leaves = e.leaves.map fun (a, l) => (f a, l) := by
  induction e <;> simp_all [map]

end Expr

/-- The expression of a node, given those of its children. -/
def Node.unfold (child : NodeId → Except Failure (Expr NodeId)) (id : NodeId) :
    Node → Except Failure (Expr NodeId)
  | leaf l => return .leaf id l
  | concat l r => return .concat id (← child l) (← child r)
  | alternation l r => return .alternation id (← child l) (← child r)
  | repetition e q => return .repetition id q (← child e)
  | capture e g => return .capture id g (← child e)

theorem Node.unfold_congr {child child' : NodeId → Except Failure (Expr NodeId)} {n : Node}
    (id : NodeId) (h : ∀ c ∈ n.children, child c = child' c) :
    n.unfold child id = n.unfold child' id := by
  cases n <;> simp_all [Node.unfold, Node.children]

namespace Tree

/-- The entry of a table of expressions; a node without one is unknown. -/
def entry (table : Array (Except Failure (Expr NodeId))) (id : NodeId) :
    Except Failure (Expr NodeId) :=
  table[id]?.getD (.error (.unknownNode id))

/-- A table of expressions, continued with those of the nodes that follow. -/
def unfoldFrom (table : Array (Except Failure (Expr NodeId))) :
    List Node → Array (Except Failure (Expr NodeId))
  | [] => table
  | n :: rest => unfoldFrom (table.push (n.unfold (entry table) table.size)) rest

/-- The expressions of all nodes. That of a shared node is made once, so the table
takes no more room than the tree. -/
def exprs (t : Tree) : Array (Except Failure (Expr NodeId)) := unfoldFrom #[] t.nodes.toList

/-- The expression that a node unfolds to. -/
def expr (t : Tree) (id : NodeId) : Except Failure (Expr NodeId) := entry t.exprs id

/-- The expression of a child, which has to come before its parent. -/
def childExpr (t : Tree) (parent child : NodeId) : Except Failure (Expr NodeId) :=
  if child < parent then t.expr child else .error (.unknownNode child)

/-- The expression at the root. -/
def rootExpr (t : Tree) : Except Failure (Expr NodeId) :=
  match t.root with
  | none => .error .missingRoot
  | some id => t.expr id

/-- The nodes that the alternatives below a node are. -/
def alternatives (t : Tree) (id : NodeId) : Except Failure (List NodeId) := do
  return (← t.expr id).alternatives.map Expr.tag

/-! ## Equations of unfolding -/

theorem getElem?_unfoldFrom_of_lt {table : Array (Except Failure (Expr NodeId))} (nodes : List Node)
    {i : Nat} (h : i < table.size) : (unfoldFrom table nodes)[i]? = table[i]? := by
  induction nodes generalizing table with
  | nil => rfl
  | cons n rest ih =>
    have hp : i < (table.push (n.unfold (entry table) table.size)).size := by
      rw [Array.size_push]
      exact Nat.lt_succ_of_lt h
    rw [unfoldFrom, ih hp, Array.getElem?_push_lt h, Array.getElem?_eq_getElem h]

theorem getElem?_unfoldFrom (table : Array (Except Failure (Expr NodeId))) (nodes : List Node)
    (i : Nat) :
    (unfoldFrom table nodes)[table.size + i]? = nodes[i]?.map fun n =>
      n.unfold
        (fun c =>
          if c < table.size + i then entry (unfoldFrom table nodes) c else .error (.unknownNode c))
        (table.size + i) := by
  induction nodes generalizing table i with
  | nil => simp [unfoldFrom]
  | cons n rest ih =>
    cases i with
    | zero =>
      rw [unfoldFrom, getElem?_unfoldFrom_of_lt rest (by simp)]
      simp only [Nat.add_zero, Array.getElem?_push_size, List.getElem?_cons_zero, Option.map_some]
      congr 1
      refine Node.unfold_congr _ fun c _ => ?_
      split
      next hc =>
        have hp : c < (table.push (n.unfold (entry table) table.size)).size := by
          rw [Array.size_push]
          exact Nat.lt_succ_of_lt hc
        rw [entry, entry, getElem?_unfoldFrom_of_lt rest hp, Array.getElem?_push_lt hc,
          Array.getElem?_eq_getElem hc]
      next hc => simp [entry, Array.getElem?_eq_none (Nat.le_of_not_lt hc)]
    | succ i =>
      have := ih (table.push (n.unfold (entry table) table.size)) i
      rw [Array.size_push, Nat.add_right_comm] at this
      simpa [unfoldFrom, Nat.add_assoc] using this

/-- A node unfolds to itself over the expressions of its children. -/
theorem expr_of_get? {t : Tree} {id : NodeId} {n : Node} (h : t.get? id = some n) :
    t.expr id = n.unfold (t.childExpr id) id := by
  have hg : t.nodes.toList[id]? = some n := by simpa [get?] using h
  have := getElem?_unfoldFrom #[] t.nodes.toList id
  simp only [hg, List.size_toArray, List.length_nil, Nat.zero_add, Option.map_some] at this
  rw [expr, exprs, entry, this]
  rfl

/-- In a well-formed tree every node unfolds. -/
theorem expr_isOk {t : Tree} (wf : t.WellFormed) :
    ∀ {id : NodeId}, id < t.size → ∃ e, t.expr id = .ok e ∧ e.tag = id := by
  intro id
  induction id using Nat.strongRecOn with
  | ind id ih =>
    intro hid
    obtain ⟨n, hn⟩ : ∃ n, t.get? id = some n := ⟨t.nodes[id], Array.getElem?_eq_getElem hid⟩
    have below : ∀ c ∈ n.children, ∃ e, t.childExpr id c = .ok e := fun c hc => by
      have hlt := wf id n hn c hc
      obtain ⟨e, he, _⟩ := ih c hlt (Nat.lt_trans hlt hid)
      exact ⟨e, by rw [childExpr, if_pos hlt, he]⟩
    rw [expr_of_get? hn]
    cases n with
    | leaf l => exact ⟨_, rfl, rfl⟩
    | concat l r =>
      obtain ⟨el, hl⟩ := below l (by simp [Node.children])
      obtain ⟨er, hr⟩ := below r (by simp [Node.children])
      exact ⟨.concat id el er, by rw [Node.unfold, hl, hr]; rfl, rfl⟩
    | alternation l r =>
      obtain ⟨el, hl⟩ := below l (by simp [Node.children])
      obtain ⟨er, hr⟩ := below r (by simp [Node.children])
      exact ⟨.alternation id el er, by rw [Node.unfold, hl, hr]; rfl, rfl⟩
    | repetition e q =>
      obtain ⟨ee, he⟩ := below e (by simp [Node.children])
      exact ⟨.repetition id q ee, by rw [Node.unfold, he]; rfl, rfl⟩
    | capture e g =>
      obtain ⟨ee, he⟩ := below e (by simp [Node.children])
      exact ⟨.capture id g ee, by rw [Node.unfold, he]; rfl, rfl⟩

end Tree

end PositionAutomata
