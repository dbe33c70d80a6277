import Mathlib
import PositionAutomata.Proofs.Tree.Appending
import PositionAutomata.Proofs.Tree.Numbering
import PositionAutomata.Proofs.Unfoldings

/-
  Copies of trees.

  Copying and expanding what is below a node only adds nodes at the end of a tree,
  also if it fails, and answers the last of them. The copy of a whole tree lists one
  expression in post-order (`build_copy`). A walk meets in it what it meets in the
  tree that was copied (`outline_numbered`), and to copy it again changes nothing
  (`copies_append`).
-/

namespace PositionAutomata

/-- The node with the numbers of its children forgotten. -/
def Node.bare : Node → Node
  | leaf l => leaf l
  | concat _ _ => concat 0 0
  | alternation _ _ => alternation 0 0
  | repetition _ q => repetition 0 q
  | capture _ g => capture 0 g

namespace Tree

variable {t u : Tree} {e : Expr NodeId}

/-- What a walk through an expression meets in a tree: nodes without the numbers of their children,
their ranks among these and their depths. -/
def outline (t : Tree) (e : Expr NodeId) : List (Option Node × Nat × Nat) :=
  (e.visits fun _ => false).map fun v => ((t.get? v.node).map Node.bare, v.rank, v.depth)

/-! ## Steps -/

theorem appends_copyInto (t : Tree) (id : NodeId) : Appends (t.copyInto id) :=
  (extends_lift (t.expr id)).appends fun e _ => e.appends_copy

theorem appends_expandInto (t : Tree) (id : NodeId) : Appends (t.expandInto id) :=
  (extends_lift (t.expr id)).appends fun e _ => e.appends_expand

/-! ## Walks -/

theorem map_bare_subexprs_numbered (e : Expr NodeId) (n : NodeId) :
    ((e.numbered n).subexprs.map fun x => x.node.bare) = e.subexprs.map fun x => x.node.bare := by
  induction e generalizing n with
  | leaf a l => rfl
  | concat a l r ihl ihr =>
    simp only [Expr.numbered_concat, Expr.subexprs_concat, List.map_cons, List.map_append, ihl, ihr]
    rfl
  | alternation a l r ihl ihr =>
    simp only [Expr.numbered_alternation, Expr.subexprs_alternation, List.map_cons,
      List.map_append, ihl, ihr]
    rfl
  | repetition a q e ih =>
    simp only [Expr.numbered_repetition, Expr.subexprs_repetition, List.map_cons, ih]
    rfl
  | capture a g e ih =>
    simp only [Expr.numbered_capture, Expr.subexprs_capture, List.map_cons, ih]
    rfl

/-- Where the nodes of an expression stand does not depend on their numbers. -/
theorem map_walk_numbered (e : Expr NodeId) (n : NodeId) (parent parent' : Option NodeId)
    (rank depth : Nat) :
    (((e.numbered n).walk (fun _ => false) parent rank depth).map fun v => (v.rank, v.depth)) =
      (e.walk (fun _ => false) parent' rank depth).map fun v => (v.rank, v.depth) := by
  induction e generalizing n parent parent' rank depth with
  | leaf a l => rfl
  | concat a l r ihl ihr =>
    simp only [Expr.numbered_concat, Expr.walk, Bool.false_eq_true, if_false, List.map_cons,
      List.map_append]
    rw [ihl _ _ (some a), ihr _ _ (some a)]
  | alternation a l r ihl ihr =>
    simp only [Expr.numbered_alternation, Expr.walk, Bool.false_eq_true, if_false, List.map_cons,
      List.map_append]
    rw [ihl _ _ (some a), ihr _ _ (some a)]
  | repetition a q e ih =>
    simp only [Expr.numbered_repetition, Expr.walk, Bool.false_eq_true, if_false, List.map_cons]
    rw [ih _ _ (some a)]
  | capture a g e ih =>
    simp only [Expr.numbered_capture, Expr.walk, Bool.false_eq_true, if_false, List.map_cons]
    rw [ih _ _ (some a)]

theorem outline_eq_zip {id : NodeId} (h : t.expr id = .ok e) :
    t.outline e = (e.subexprs.map fun x => some x.node.bare).zip
      ((e.visits fun _ => false).map fun v => (v.rank, v.depth)) := by
  have hnodes : (e.subexprs.map fun x => some x.node.bare) =
      (e.visits fun _ => false).map fun v => (t.get? v.node).map Node.bare := by
    calc e.subexprs.map fun x => some x.node.bare
      _ = e.tags.map fun id => (t.get? id).map Node.bare := by
        rw [Expr.tags, List.map_map]
        refine List.map_congr_left fun x hx => ?_
        rw [Function.comp_apply, get?_of_expr (expr_of_mem_subexprs h x hx), Option.map_some]
      _ = (e.visits fun _ => false).map fun v => (t.get? v.node).map Node.bare := by
        rw [← e.map_node_walk none 0 0, List.map_map]
        rfl
  rw [hnodes, List.zip_map']
  rfl

/-- Walks through an expression and through its numbered form meet the same. -/
theorem outline_numbered {id n : NodeId} (ht : t.expr id = .ok e)
    (hu : u.expr (e.numbered n).tag = .ok (e.numbered n)) :
    u.outline (e.numbered n) = t.outline e := by
  have hnodes := congrArg (List.map some) (map_bare_subexprs_numbered e n)
  rw [List.map_map, List.map_map] at hnodes
  rw [outline_eq_zip hu, outline_eq_zip ht]
  exact congrArg₂ List.zip hnodes (map_walk_numbered e n none none 0 0)

/-! ## Copies -/

/-- The tree that lists an expression in post-order. -/
def ofExpr (e : Expr NodeId) : Tree where
  nodes := (e.numbered 0).postorder.toArray
  root := some (e.numbered 0).tag

theorem build_copy (hv : e.Valid) : build e.copy = .ok (ofExpr e) := by
  rw [build, Expr.run_copy hv empty]
  show Except.ok (Tree.mk (#[] ++ (e.numbered 0).postorder.toArray) _) = _
  rw [Array.empty_append]
  rfl

theorem size_ofExpr (e : Expr NodeId) : (ofExpr e).size = (e.numbered 0).postorder.length :=
  List.size_toArray

theorem expr_ofExpr (e : Expr NodeId) :
    (ofExpr e).expr (e.numbered 0).tag = .ok (e.numbered 0) :=
  expr_of_grows ⟨[], by simp [ofExpr, extend, empty, size]⟩ (e.expr_extend_numbered empty)

/-- What is listed in post-order is listed so again. -/
theorem ofExpr_numbered (e : Expr NodeId) : ofExpr (e.numbered 0) = ofExpr e := by
  rw [ofExpr, Expr.numbered_numbered, ofExpr]

/-- Copying and expanding what is below a node only adds nodes at the end of a tree, whether it
succeeds or fails, and answers the last one. The copy of a tree lists a single expression in
post-order: its root is the last node, and every other one is a child, once. A walk meets in it what
it meets in the tree that was copied, and it is its own copy. -/
theorem copies_append (t : Tree) :
    (∀ id, Appends (t.copyInto id) ∧ Appends (t.expandInto id)) ∧
      ∀ u, t.deepCopy = .ok u → ∃ e f, t.rootExpr = .ok e ∧ u.rootExpr = .ok f ∧
        u.root = some f.tag ∧ f.tag + 1 = u.size ∧ u.WellFormed ∧
        u.nodes.toList = f.postorder ∧
        (u.nodes.toList.flatMap Node.children).Perm (List.range f.tag) ∧
        u.outline f = t.outline e ∧ u.deepCopy = .ok u := by
  refine ⟨fun id => ⟨appends_copyInto t id, appends_expandInto t id⟩, fun u h => ?_⟩
  obtain ⟨e, he, hbuild⟩ := bind_eq_ok.mp h
  -- Copying has checked the bounds of every repetition.
  have hv : e.Valid := Expr.valid_of_build (Expr.hasFault_copy e) hbuild
  obtain ⟨id, hid⟩ : ∃ id, t.expr id = .ok e := by
    rw [rootExpr] at he
    split at he
    next => exact absurd he (by simp)
    next id _ => exact ⟨id, he⟩
  rw [build_copy hv] at hbuild
  obtain rfl := Except.ok.inj hbuild
  have hexpr := expr_ofExpr e
  have htags : (e.numbered 0).tags.Perm (List.range (ofExpr e).size) := by
    rw [size_ofExpr, List.range_eq_range']
    exact e.perm_tags_numbered 0
  obtain ⟨hlast, hwf, hchildren⟩ := single_of_tags hexpr htags
  have hcopy : (ofExpr e).deepCopy = .ok (ofExpr e) := by
    have hroot : (ofExpr e).rootExpr = .ok (e.numbered 0) := hexpr
    rw [deepCopy, hroot]
    show build (e.numbered 0).copy = _
    rw [build_copy (Expr.valid_numbered.mpr hv), ofExpr_numbered]
  exact ⟨e, e.numbered 0, he, hexpr, rfl, hlast, hwf, List.toList_toArray, hchildren,
    outline_numbered hid hexpr, hcopy⟩

open Automaton (sharedLetters unsharedLetters) in
theorem copies_append_sharedLetters :
    sharedLetters.deepCopy = .ok unsharedLetters ∧
      unsharedLetters.deepCopy = .ok unsharedLetters ∧
      (unsharedLetters.nodes.toList.flatMap Node.children).Perm (List.range 6) ∧
      ((sharedLetters.expandInto 5).run unsharedLetters).1 = .ok 17 ∧
      unsharedLetters.Grows ((sharedLetters.expandInto 5).run unsharedLetters).2 ∧
      ((sharedLetters.expandInto 5).run unsharedLetters).2.size = 18 := by
  have hcopy : sharedLetters.deepCopy = .ok unsharedLetters := by rfl
  have hexpand : ((sharedLetters.expandInto 5).run unsharedLetters).1 = .ok 17 := by rfl
  obtain ⟨hsteps, hdeep⟩ := copies_append sharedLetters
  obtain ⟨e, f, _, _, hroot, _, _, _, hchildren, _, hagain⟩ := hdeep unsharedLetters hcopy
  obtain ⟨hgrows, _, hlast⟩ := (hsteps 5).2 unsharedLetters
  have htag : f.tag = 6 := (Option.some.inj hroot).symm
  rw [htag] at hchildren
  exact ⟨hcopy, hagain, hchildren, hexpand, hgrows, (hlast 17 hexpand).2.symm⟩

end Tree

end PositionAutomata
