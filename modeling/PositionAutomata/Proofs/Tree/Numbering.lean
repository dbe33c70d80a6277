import PositionAutomata.Proofs.Tree.Faults
import PositionAutomata.Proofs.Tree.Single

/-
  Copies in post-order.

  A copy lists the nodes of an expression in post-order, numbered from the size of
  the tree that it is added to (`run_copy`), and unfolds to the expression with these
  numbers (`expr_extend_numbered`). The numbers depend on the shape alone, so what is
  numbered already is numbered the same way again (`numbered_numbered`); and they are
  met once each (`perm_tags_numbered`).
-/

namespace PositionAutomata

namespace Expr

variable {α : Type}

/-- The expression with its nodes numbered from `first` on, each after those below it. -/
def numbered (first : NodeId) : Expr α → Expr NodeId
  | leaf _ l => leaf first l
  | concat _ l r =>
    let left := l.numbered first
    let right := r.numbered (left.tag + 1)
    concat (right.tag + 1) left right
  | alternation _ l r =>
    let left := l.numbered first
    let right := r.numbered (left.tag + 1)
    alternation (right.tag + 1) left right
  | repetition _ q e =>
    let inner := e.numbered first
    repetition (inner.tag + 1) q inner
  | capture _ g e =>
    let inner := e.numbered first
    capture (inner.tag + 1) g inner

/-- The nodes that an expression stands for, each after those below it. -/
def postorder : Expr NodeId → List Node
  | leaf a l => [(leaf a l).node]
  | concat a l r => l.postorder ++ r.postorder ++ [(concat a l r).node]
  | alternation a l r => l.postorder ++ r.postorder ++ [(alternation a l r).node]
  | repetition a q e => e.postorder ++ [(repetition a q e).node]
  | capture a g e => e.postorder ++ [(capture a g e).node]

theorem numbered_concat (a : α) (l r : Expr α) (first : NodeId) :
    (concat a l r).numbered first =
      concat ((r.numbered ((l.numbered first).tag + 1)).tag + 1) (l.numbered first)
        (r.numbered ((l.numbered first).tag + 1)) := rfl

theorem numbered_alternation (a : α) (l r : Expr α) (first : NodeId) :
    (alternation a l r).numbered first =
      alternation ((r.numbered ((l.numbered first).tag + 1)).tag + 1) (l.numbered first)
        (r.numbered ((l.numbered first).tag + 1)) := rfl

theorem numbered_repetition (a : α) (q : Quantifier) (e : Expr α) (first : NodeId) :
    (repetition a q e).numbered first =
      repetition ((e.numbered first).tag + 1) q (e.numbered first) := rfl

theorem numbered_capture (a : α) (g : Group) (e : Expr α) (first : NodeId) :
    (capture a g e).numbered first = capture ((e.numbered first).tag + 1) g (e.numbered first) :=
  rfl

theorem postorder_concat (a : NodeId) (l r : Expr NodeId) :
    (concat a l r).postorder = l.postorder ++ r.postorder ++ [(concat a l r).node] := rfl

theorem postorder_alternation (a : NodeId) (l r : Expr NodeId) :
    (alternation a l r).postorder = l.postorder ++ r.postorder ++ [(alternation a l r).node] := rfl

theorem postorder_repetition (a : NodeId) (q : Quantifier) (e : Expr NodeId) :
    (repetition a q e).postorder = e.postorder ++ [(repetition a q e).node] := rfl

theorem postorder_capture (a : NodeId) (g : Group) (e : Expr NodeId) :
    (capture a g e).postorder = e.postorder ++ [(capture a g e).node] := rfl

/-- The topmost node has the last number. -/
theorem tag_numbered (e : Expr α) (first : NodeId) :
    (e.numbered first).tag + 1 = first + (e.numbered first).postorder.length := by
  induction e generalizing first with
  | leaf a l => rfl
  | concat a l r ihl ihr =>
    rw [numbered_concat, postorder_concat, List.length_append, List.length_append, ← Nat.add_assoc,
      ← Nat.add_assoc, ← ihl, ← ihr]
    rfl
  | alternation a l r ihl ihr =>
    rw [numbered_alternation, postorder_alternation, List.length_append, List.length_append,
      ← Nat.add_assoc, ← Nat.add_assoc, ← ihl, ← ihr]
    rfl
  | repetition a q e ih =>
    rw [numbered_repetition, postorder_repetition, List.length_append, ← Nat.add_assoc, ← ih]
    rfl
  | capture a g e ih =>
    rw [numbered_capture, postorder_capture, List.length_append, ← Nat.add_assoc, ← ih]
    rfl

theorem numbered_numbered (e : Expr α) (m n : NodeId) :
    (e.numbered m).numbered n = e.numbered n := by
  induction e generalizing m n with
  | leaf a l => rfl
  | concat a l r ihl ihr => simp only [numbered_concat, ihl, ihr]
  | alternation a l r ihl ihr => simp only [numbered_alternation, ihl, ihr]
  | repetition a q e ih => simp only [numbered_repetition, ih]
  | capture a g e ih => simp only [numbered_capture, ih]

theorem valid_numbered {e : Expr α} {first : NodeId} : (e.numbered first).Valid ↔ e.Valid := by
  induction e generalizing first with
  | leaf a l => exact Iff.rfl
  | concat a l r ihl ihr => exact and_congr ihl ihr
  | alternation a l r ihl ihr => exact and_congr ihl ihr
  | repetition a q e ih => exact and_congr_right fun _ => ih
  | capture a g e ih => exact ih

theorem perm_cons_range' {ids : List NodeId} {first n : Nat} (h : ids.Perm (List.range' first n)) :
    ((first + n) :: ids).Perm (List.range' first (n + 1)) := by
  rw [List.range'_1_concat]
  exact (h.cons _).trans (List.perm_append_singleton _ _).symm

/-- Two blocks of numbers, and the one after them. -/
theorem perm_cons_append_range' {ids ids' : List NodeId} {first m n : Nat}
    (h : ids.Perm (List.range' first m)) (h' : ids'.Perm (List.range' (first + m) n)) :
    ((first + (m + n)) :: (ids ++ ids')).Perm (List.range' first (m + n + 1)) := by
  apply perm_cons_range'
  rw [← List.range'_append_1]
  exact h.append h'

/-- Every number is met once. -/
theorem perm_tags_numbered (e : Expr α) (first : NodeId) :
    (e.numbered first).tags.Perm (List.range' first (e.numbered first).postorder.length) := by
  induction e generalizing first with
  | leaf a l => exact .refl _
  | concat a l r ihl ihr =>
    rw [numbered_concat, tags_concat, postorder_concat, List.length_append, List.length_append,
      tag_numbered, tag_numbered, Nat.add_assoc]
    exact perm_cons_append_range' (ihl first) (ihr _)
  | alternation a l r ihl ihr =>
    rw [numbered_alternation, tags_alternation, postorder_alternation, List.length_append,
      List.length_append, tag_numbered, tag_numbered, Nat.add_assoc]
    exact perm_cons_append_range' (ihl first) (ihr _)
  | repetition a q e ih =>
    rw [numbered_repetition, tags_repetition, postorder_repetition, List.length_append,
      tag_numbered]
    exact perm_cons_range' (ih first)
  | capture a g e ih =>
    rw [numbered_capture, tags_capture, postorder_capture, List.length_append, tag_numbered]
    exact perm_cons_range' (ih first)

end Expr

namespace Tree

/-- The tree with more nodes at its end. -/
def extend (t : Tree) (ns : List Node) : Tree := { t with nodes := t.nodes ++ ns.toArray }

variable {t : Tree} {ns ms : List Node}

@[simp] theorem size_extend : (t.extend ns).size = t.size + ns.length := by simp [extend, size]

theorem extend_append : t.extend (ns ++ ms) = (t.extend ns).extend ms := by simp [extend]

theorem expr_extend {id : NodeId} {e : Expr NodeId} (h : t.expr id = .ok e) :
    (t.extend ns).expr id = .ok e :=
  expr_of_grows ⟨ns, by simp [extend]⟩ h

theorem place_snd (n : Node) (t : Tree) : (place n t).2 = t.extend [n] := by
  simp [place, extend]

/-- A node unfolds to its expression over those of its children in the tree before. -/
theorem expr_extend_of_unfold {n : Node} {id : NodeId} {e : Expr NodeId} (hid : t.size = id)
    (h : n.unfold t.expr id = .ok e) : (t.extend [n]).expr id = .ok e := by
  subst hid
  rw [← place_snd, expr_place, ← h]
  refine Node.unfold_congr _ fun c hc => ?_
  obtain ⟨f, hf⟩ := exists_of_mem_children h c hc
  rw [hf, childExpr_place hf]

/-! ## Steps that add nodes -/

variable {s r : PartialStep NodeId} {a b : NodeId}

theorem run_place (n : Node) (t : Tree) :
    (liftM (place n) : PartialStep NodeId).run t = (.ok t.size, t.extend [n]) := by
  rw [← place_snd]
  rfl

theorem run_place_one (node : NodeId → Node) (hs : s.run t = (.ok a, t.extend ns)) :
    (do liftM (place (node (← s)))).run t =
      (.ok (t.size + ns.length), t.extend (ns ++ [node a])) := by
  rw [run_bind hs, run_place, size_extend, extend_append]

theorem run_place_two (node : NodeId → NodeId → Node) (hs : s.run t = (.ok a, t.extend ns))
    (hr : r.run (t.extend ns) = (.ok b, (t.extend ns).extend ms)) :
    (do liftM (place (node (← s) (← r)))).run t =
      (.ok (t.size + ns.length + ms.length), t.extend (ns ++ ms ++ [node a b])) := by
  rw [run_bind hs, run_bind hr, run_place, size_extend, size_extend, extend_append, extend_append]

end Tree

namespace Expr

variable {α : Type}

/-! ## Copies -/

theorem size_extend_numbered (e : Expr α) (t : Tree) :
    (t.extend (e.numbered t.size).postorder).size = (e.numbered t.size).tag + 1 := by
  rw [Tree.size_extend, tag_numbered]

/-- A copy adds the nodes of the numbered expression. -/
theorem run_copy {e : Expr NodeId} (hv : e.Valid) (t : Tree) :
    e.copy.run t = (.ok (e.numbered t.size).tag, t.extend (e.numbered t.size).postorder) := by
  induction e generalizing t with
  | leaf a l => exact Tree.run_place _ t
  | concat a l r ihl ihr =>
    have hr := ihr hv.2 (t.extend (l.numbered t.size).postorder)
    rw [Tree.size_extend, ← tag_numbered] at hr
    refine (Tree.run_place_two .concat (ihl hv.1 t) hr).trans ?_
    rw [← tag_numbered, ← tag_numbered]
    rfl
  | alternation a l r ihl ihr =>
    have hr := ihr hv.2 (t.extend (l.numbered t.size).postorder)
    rw [Tree.size_extend, ← tag_numbered] at hr
    refine (Tree.run_place_two .alternation (ihl hv.1 t) hr).trans ?_
    rw [← tag_numbered, ← tag_numbered]
    rfl
  | repetition a q e ih =>
    rw [copy, Tree.run_bind (run_checkBounds hv.1 t)]
    refine (Tree.run_place_one (.repetition · q) (ih hv.2 t)).trans ?_
    rw [← tag_numbered]
    rfl
  | capture a g e ih =>
    refine (Tree.run_place_one (.capture · g) (ih hv t)).trans ?_
    rw [← tag_numbered]
    rfl

/-- The copy unfolds to the numbered expression. -/
theorem expr_extend_numbered (e : Expr α) (t : Tree) :
    (t.extend (e.numbered t.size).postorder).expr (e.numbered t.size).tag =
      .ok (e.numbered t.size) := by
  induction e generalizing t with
  | leaf a l => exact Tree.expr_extend_of_unfold (n := .leaf l) rfl rfl
  | concat a l r ihl ihr =>
    have hsize := size_extend_numbered l t
    have hsize' := size_extend_numbered r (t.extend (l.numbered t.size).postorder)
    have hr := ihr (t.extend (l.numbered t.size).postorder)
    rw [hsize] at hsize' hr
    rw [numbered_concat, postorder_concat, Tree.extend_append, Tree.extend_append]
    refine Tree.expr_extend_of_unfold hsize' ?_
    rw [node, Node.unfold, Tree.expr_extend (ihl t), hr]
    rfl
  | alternation a l r ihl ihr =>
    have hsize := size_extend_numbered l t
    have hsize' := size_extend_numbered r (t.extend (l.numbered t.size).postorder)
    have hr := ihr (t.extend (l.numbered t.size).postorder)
    rw [hsize] at hsize' hr
    rw [numbered_alternation, postorder_alternation, Tree.extend_append, Tree.extend_append]
    refine Tree.expr_extend_of_unfold hsize' ?_
    rw [node, Node.unfold, Tree.expr_extend (ihl t), hr]
    rfl
  | repetition a q e ih =>
    rw [numbered_repetition, postorder_repetition, Tree.extend_append]
    exact Tree.expr_extend_of_unfold (size_extend_numbered e t) (by rw [node, Node.unfold, ih]; rfl)
  | capture a g e ih =>
    rw [numbered_capture, postorder_capture, Tree.extend_append]
    exact Tree.expr_extend_of_unfold (size_extend_numbered e t) (by rw [node, Node.unfold, ih]; rfl)

end Expr

end PositionAutomata
