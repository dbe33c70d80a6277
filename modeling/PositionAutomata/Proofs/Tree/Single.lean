import Mathlib.Data.List.Intervals
import PositionAutomata.Proofs.Tree.Unfolding

/-
  Trees without sharing and without nodes that no root reaches.

  Below the topmost node of an expression every node is the child of one other
  (`Expr.perm_tag_children`). So if a node unfolds to an expression in which each
  node of the tree occurs once, the tree is that expression and nothing else: its
  root is the last node and every other node is a child, once (`Tree.single_of_tags`).
-/

namespace PositionAutomata

/-! ## Tags of parts -/

namespace Expr

variable {α : Type}

@[simp] theorem tags_leaf (a : α) (l : Leaf) : (leaf a l).tags = [a] := rfl

@[simp] theorem tags_concat (a : α) (l r : Expr α) :
    (concat a l r).tags = a :: (l.tags ++ r.tags) := by
  simp [tags]

@[simp] theorem tags_alternation (a : α) (l r : Expr α) :
    (alternation a l r).tags = a :: (l.tags ++ r.tags) := by
  simp [tags]

@[simp] theorem tags_repetition (a : α) (q : Quantifier) (e : Expr α) :
    (repetition a q e).tags = a :: e.tags := rfl

@[simp] theorem tags_capture (a : α) (g : Group) (e : Expr α) :
    (capture a g e).tags = a :: e.tags := rfl

/-- A walk that stops nowhere meets all nodes, each before those below it. -/
theorem map_node_walk (e : Expr α) (parent : Option α) (rank depth : Nat) :
    (e.walk (fun _ => false) parent rank depth).map Visit.node = e.tags := by
  induction e generalizing parent rank depth with
  | leaf a l => rfl
  | concat a l r ihl ihr => simp [walk, ihl, ihr]
  | alternation a l r ihl ihr => simp [walk, ihl, ihr]
  | repetition a q e ih => simp [walk, ih]
  | capture a g e ih => simp [walk, ih]

/-- The children of two expressions one after the other, and their topmost nodes. -/
theorem perm_tags_append {l r : Expr NodeId} {ls rs : List NodeId}
    (hl : (l.tag :: ls).Perm l.tags) (hr : (r.tag :: rs).Perm r.tags) :
    (l.tag :: r.tag :: (ls ++ rs)).Perm (l.tags ++ r.tags) := by
  refine List.Perm.trans ?_ (hl.append hr)
  rw [List.cons_append]
  exact List.perm_middle.symm.cons _

/-- The nodes of an expression are the topmost one and the children of all its nodes. -/
theorem perm_tag_children (e : Expr NodeId) :
    (e.tag :: e.subexprs.flatMap fun x => x.node.children).Perm e.tags := by
  induction e with
  | leaf a l => exact .refl _
  | concat a l r ihl ihr =>
    rw [subexprs_concat, List.flatMap_cons, List.flatMap_append, tags_concat]
    exact (perm_tags_append ihl ihr).cons a
  | alternation a l r ihl ihr =>
    rw [subexprs_alternation, List.flatMap_cons, List.flatMap_append, tags_alternation]
    exact (perm_tags_append ihl ihr).cons a
  | repetition a q e ih => exact ih.cons a
  | capture a g e ih => exact ih.cons a

end Expr

/-! ## Trees that are one expression -/

namespace Tree

variable {t : Tree} {id : NodeId} {e : Expr NodeId}

/-- The topmost node of an expression has the greatest number. -/
theorem le_of_mem_tags (h : t.expr id = .ok e) : ∀ a ∈ e.tags, a ≤ id := by
  induction id using Nat.strongRecOn generalizing e with
  | ind id ih =>
    obtain ⟨n, _, hu⟩ := exists_get?_of_expr h
    obtain ⟨htag, hparts⟩ := of_unfold hu
    intro a ha
    obtain ⟨x, hx, rfl⟩ := List.mem_map.mp ha
    rcases hparts x hx with rfl | ⟨c, f, hc, hx⟩
    · exact Nat.le_of_eq htag
    · obtain ⟨hlt, hf⟩ := of_childExpr hc
      exact Nat.le_trans (ih c hlt hf x.tag (List.mem_map_of_mem hx)) (Nat.le_of_lt hlt)

/-- A node that unfolds has children that do. -/
theorem exists_of_mem_children {child : NodeId → Except Failure (Expr NodeId)} {n : Node}
    (h : n.unfold child id = .ok e) : ∀ c ∈ n.children, ∃ f, child c = .ok f := by
  cases n with
  | leaf l => exact fun c hc => absurd hc List.not_mem_nil
  | concat l r =>
    obtain ⟨el, hl, h⟩ := bind_eq_ok.mp h
    obtain ⟨er, hr, _⟩ := bind_eq_ok.mp h
    exact List.forall_mem_cons.mpr ⟨⟨el, hl⟩, List.forall_mem_singleton.mpr ⟨er, hr⟩⟩
  | alternation l r =>
    obtain ⟨el, hl, h⟩ := bind_eq_ok.mp h
    obtain ⟨er, hr, _⟩ := bind_eq_ok.mp h
    exact List.forall_mem_cons.mpr ⟨⟨el, hl⟩, List.forall_mem_singleton.mpr ⟨er, hr⟩⟩
  | repetition c q =>
    obtain ⟨ec, hc, _⟩ := bind_eq_ok.mp h
    exact List.forall_mem_singleton.mpr ⟨ec, hc⟩
  | capture c g =>
    obtain ⟨ec, hc, _⟩ := bind_eq_ok.mp h
    exact List.forall_mem_singleton.mpr ⟨ec, hc⟩

/-- If the expression of a node holds every node, each comes after its children. -/
theorem wellFormed_of_tags (h : t.expr id = .ok e) (hall : ∀ a < t.size, a ∈ e.tags) :
    t.WellFormed := by
  intro a n hn c hc
  have ha : a < t.size := (Array.getElem?_eq_some_iff.mp hn).1
  obtain ⟨x, hx, rfl⟩ := List.mem_map.mp (hall a ha)
  have hexpr := expr_of_mem_subexprs h x hx
  rw [expr_of_get? hn] at hexpr
  obtain ⟨f, hf⟩ := exists_of_mem_children hexpr c hc
  exact (of_childExpr hf).1

/-- The children of the node of that number. -/
def childrenOf (t : Tree) (id : NodeId) : List NodeId := (t.get? id).elim [] Node.children

theorem flatMap_childrenOf_range (t : Tree) :
    (List.range t.size).flatMap t.childrenOf = t.nodes.toList.flatMap Node.children := by
  have hlist : ∀ ns : List Node,
      ((List.range ns.length).flatMap fun i => (ns[i]?).elim [] Node.children) =
        ns.flatMap Node.children := by
    intro ns
    induction ns with
    | nil => rfl
    | cons n ns ih =>
      rw [List.length_cons, List.range_succ_eq_map, List.flatMap_cons, List.flatMap_map,
        List.flatMap_cons, ← ih]
      rfl
  rw [← hlist]
  simp only [Array.length_toList, Array.getElem?_toList]
  rfl

theorem flatMap_childrenOf_tags (h : t.expr id = .ok e) :
    e.tags.flatMap t.childrenOf = e.subexprs.flatMap fun x => x.node.children := by
  rw [Expr.tags, List.flatMap_map]
  refine List.flatMap_congr fun x hx => ?_
  rw [childrenOf, get?_of_expr (expr_of_mem_subexprs h x hx)]
  rfl

/-- A tree whose nodes occur once each in the expression of one of them is this expression. That
node is the last one, all others are children, each once, and no child comes after its parent. -/
theorem single_of_tags (h : t.expr id = .ok e) (htags : e.tags.Perm (List.range t.size)) :
    id + 1 = t.size ∧ t.WellFormed ∧
      (t.nodes.toList.flatMap Node.children).Perm (List.range id) := by
  have hmem : ∀ a, a ∈ e.tags ↔ a < t.size := fun a => htags.mem_iff.trans List.mem_range
  have hlt := lt_size_of_expr h
  have hlast : t.size - 1 ≤ id :=
    le_of_mem_tags h (t.size - 1) ((hmem _).mpr (Nat.sub_one_lt_of_lt hlt))
  have hsize : id + 1 = t.size := Nat.le_antisymm hlt (Nat.le_add_of_sub_le hlast)
  refine ⟨hsize, wellFormed_of_tags h fun a ha => (hmem a).mpr ha, ?_⟩
  have hchildren : (t.nodes.toList.flatMap Node.children).Perm
      (e.subexprs.flatMap fun x => x.node.children) := by
    rw [← flatMap_childrenOf_range, ← flatMap_childrenOf_tags h]
    exact (htags.flatMap_right t.childrenOf).symm
  have hall := (hchildren.cons e.tag).trans (e.perm_tag_children.trans htags)
  rw [tag_of_expr h, ← hsize, List.range_succ] at hall
  exact (hall.trans (List.perm_append_singleton id _)).cons_inv

end Tree

end PositionAutomata
