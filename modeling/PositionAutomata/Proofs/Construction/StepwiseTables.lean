import Mathlib.Data.List.Basic
import PositionAutomata.Construction.Stepwise
import PositionAutomata.Proofs.Construction.Worklist

/-
  Tables that are filled step by step.

  Each step looks up a node of the walk, what was entered for the nodes below it
  and some positions. Along the walk the nodes below come later
  (`Expr.PartsFollow`), so from its end on each node finds the ends that it needs
  (`foldlM_enterEnds`). What a node adds to the sets of followers and to the
  events is what its topmost part gives (`addFollowers_eq`, `addEvents_eq`), and
  all nodes together give what is gathered for the expression. So every look-up
  succeeds and the tables are those of the analysis (`analyze_eq`).
-/

namespace PositionAutomata

namespace Expr

/-- The expressions right below an expression. -/
def parts {α : Type} : Expr α → List (Expr α)
  | leaf _ _ => []
  | concat _ l r => [l, r]
  | alternation _ l r => [l, r]
  | repetition _ _ e => [e]
  | capture _ _ e => [e]

/-- In a walk what stands right below an expression comes after it. -/
def PartsFollow {α : Type} : List (Expr α) → Prop
  | [] => True
  | x :: xs => (∀ y ∈ x.parts, y ∈ xs) ∧ PartsFollow xs

theorem partsFollow_subexprsOnto {α : Type} (e : Expr α) {rest : List (Expr α)}
    (h : PartsFollow rest) : PartsFollow (e.subexprsOnto rest) := by
  have hself : ∀ (x : Expr α) (xs : List (Expr α)), x ∈ x.subexprsOnto xs := by
    intro x xs
    rw [subexprsOnto_eq_append]
    exact List.mem_append_left xs x.mem_subexprs_self
  have hmono : ∀ (x y : Expr α) (xs : List (Expr α)), y ∈ xs → y ∈ x.subexprsOnto xs := by
    intro x y xs hy
    rw [subexprsOnto_eq_append]
    exact List.mem_append_right _ hy
  induction e generalizing rest with
  | leaf a l => exact ⟨by simp [parts], h⟩
  | concat a l r ihl ihr =>
    refine ⟨fun y hy => ?_, ihl (ihr h)⟩
    obtain rfl | rfl : y = l ∨ y = r := by simpa [parts] using hy
    · exact hself _ _
    · exact hmono _ _ _ (hself _ _)
  | alternation a l r ihl ihr =>
    refine ⟨fun y hy => ?_, ihl (ihr h)⟩
    obtain rfl | rfl : y = l ∨ y = r := by simpa [parts] using hy
    · exact hself _ _
    · exact hmono _ _ _ (hself _ _)
  | repetition a q e ih =>
    refine ⟨fun y hy => ?_, ih h⟩
    obtain rfl : y = e := by simpa [parts] using hy
    exact hself _ _
  | capture a g e ih =>
    refine ⟨fun y hy => ?_, ih h⟩
    obtain rfl : y = e := by simpa [parts] using hy
    exact hself _ _

end Expr

namespace Stepwise

variable {t : Tree} {root : NodeId} {e x : Expr NodeId} {p : Position}

/-- The ends of a part of an expression, its leaves standing at their positions in the whole. -/
abbrev endsIn (t : Tree) (e x : Expr NodeId) : Ends :=
  x.ends (Positions.ofExpr t.size e).nodePosition?

/-- A part with its ends and those of its parts. -/
abbrev solvedIn (t : Tree) (e x : Expr NodeId) : Expr (NodeId × Ends) :=
  x.solve (Positions.ofExpr t.size e).nodePosition?

/-- The ends of all nodes. -/
abbrev tableOf (t : Tree) (e : Expr NodeId) : Array Ends :=
  Analysis.endsTable t.size (solvedIn t e e)

/-- Every node that a walk meets is there. -/
theorem node_of_mem (h : t.expr root = .ok e) (hx : x ∈ e.subexprs) :
    t.node x.tag = .ok x.node := by
  rw [Tree.node, Tree.get?_of_expr (Tree.expr_of_mem_subexprs h x hx)]

theorem mem_subexprs_of_mem_parts {y : Expr NodeId} (hx : x ∈ e.subexprs) (hy : y ∈ x.parts) :
    y ∈ e.subexprs := by
  have hfollow : ∀ {xs : List (Expr NodeId)}, Expr.PartsFollow xs → x ∈ xs → y ∈ xs := by
    intro xs h hx
    induction xs with
    | nil => exact absurd hx (by simp)
    | cons z xs ih =>
      rcases List.mem_cons.mp hx with rfl | hx
      · exact List.mem_cons_of_mem _ (h.1 y hy)
      · exact List.mem_cons_of_mem _ (ih h.2 hx)
  exact hfollow (Expr.partsFollow_subexprsOnto e trivial) hx

/-! ## Ends -/

theorem endsOfNode_eq (h : t.expr root = .ok e) (hx : x ∈ e.subexprs) {table : Array Ends}
    (hparts : ∀ y ∈ x.parts, endsAt table y.tag = .ok (endsIn t e y)) :
    endsOfNode t (.ofExpr t.size e) table x.tag = .ok (endsIn t e x) := by
  rw [endsOfNode, node_of_mem h hx]
  cases x with
  | leaf a l =>
    show (if l.isEmpty then Except.ok Ends.empty else _) = _
    rw [endsIn, Expr.ends, Expr.leafEnds]
    split
    · rfl
    · have hleaf : (a, l) ∈ e.leaves := Expr.leaves_subset_of_mem_subexprs hx (by simp)
      obtain ⟨p, hp⟩ := Positions.exists_nodePosition? hleaf
        (Tree.lt_size_of_expr (Tree.expr_of_mem_subexprs h _ hx))
      rw [Expr.tag_leaf, hp]
      rfl
  | concat a l r =>
    show (endsAt table l.tag >>= fun x => endsAt table r.tag >>= fun y => _) = _
    rw [hparts l (by simp [Expr.parts]), hparts r (by simp [Expr.parts])]
    rfl
  | alternation a l r =>
    show (endsAt table l.tag >>= fun x => endsAt table r.tag >>= fun y => _) = _
    rw [hparts l (by simp [Expr.parts]), hparts r (by simp [Expr.parts])]
    rfl
  | repetition a q y =>
    show (endsAt table y.tag >>= _) = _
    rw [hparts y (by simp [Expr.parts])]
    rfl
  | capture a g y => exact hparts y (by simp [Expr.parts])

/-- From its end on, each node of a walk finds the ends of the nodes below it. -/
theorem foldlM_enterEnds (h : t.expr root = .ok e) {xs : List (Expr NodeId)}
    (hxs : ∀ x ∈ xs, x ∈ e.subexprs) (hparts : Expr.PartsFollow xs) :
    (xs.map Expr.tag).reverse.foldlM (enterEnds t (.ofExpr t.size e))
        (Array.replicate t.size Ends.none) =
      .ok (xs.reverse.foldl (fun table x => table.setIfInBounds x.tag (endsIn t e x))
        (Array.replicate t.size Ends.none)) := by
  induction xs with
  | nil => rfl
  | cons x xs ih =>
    obtain ⟨hbelow, hrest⟩ := hparts
    have hxs' : ∀ y ∈ xs, y ∈ e.subexprs := fun y hy => hxs y (List.mem_cons_of_mem x hy)
    rw [List.map_cons, List.reverse_cons, List.foldlM_append, ih hxs' hrest, List.reverse_cons,
      List.foldl_append]
    show (enterEnds t _ _ x.tag >>= pure) = _
    rw [enterEnds, endsOfNode_eq h (hxs x List.mem_cons_self) fun y hy => ?_]
    · rfl
    · have hy := hbelow y hy
      have hlt := Tree.lt_size_of_expr (Tree.expr_of_mem_subexprs h y (hxs' y hy))
      obtain ⟨z, hz, htag, hget⟩ := getElem?_foldl_set Expr.tag (endsIn t e)
        (Array.replicate t.size Ends.none) (List.mem_reverse.mpr hy) (by simpa using hlt)
      obtain rfl := Tree.eq_of_tag_eq h (hxs' z (List.mem_reverse.mp hz)) (hxs' y hy) htag
      rw [endsAt, hget]

theorem enterEnds_eq (h : t.expr root = .ok e) :
    e.tags.reverse.foldlM (enterEnds t (.ofExpr t.size e)) (Array.replicate t.size .none) =
      .ok (tableOf t e) := by
  rw [Expr.tags, foldlM_enterEnds h (fun _ hx => hx) (Expr.partsFollow_subexprsOnto e trivial),
    foldl_set_reverse Expr.tag _ _ fun x hx y hy htag => ?_]
  · rw [tableOf, Analysis.endsTable, Expr.tags_solve, List.foldl_map]
  · rw [Tree.eq_of_tag_eq h hx hy htag]

theorem endsAt_eq (h : t.expr root = .ok e) (hx : x ∈ e.subexprs) :
    endsAt (tableOf t e) x.tag = .ok (endsIn t e x) :=
  show (Analysis.ofExpr t e true true).nodeEnds x.tag = _ from Analysis.nodeEnds_of_mem h hx

theorem le_size_of_mem_first (hp : p ∈ (endsIn t e x).first) :
    0 < p ∧ p ≤ (Positions.ofExpr t.size e).size := by
  obtain ⟨_, _, hpos⟩ := Expr.mem_first_ends.mp hp
  exact Positions.le_size_of_nodePosition? hpos

theorem le_size_of_mem_last (hp : p ∈ (endsIn t e x).last) :
    0 < p ∧ p ≤ (Positions.ofExpr t.size e).size := by
  obtain ⟨_, _, hpos⟩ := Expr.mem_last_ends.mp hp
  exact Positions.le_size_of_nodePosition? hpos

/-! ## What follows, and events -/

/-- A table with some more items added, each at its position. -/
def gatherOnto {α β : Type} (add : β → α → β) (table : Array β) (items : List (Position × α)) :
    Array β :=
  (items.filterMap fun (p, a) => if p = 0 then none else some (p - 1, a)).foldl
    (fun table (i, a) => table.modify i (add · a)) table

section

variable {α β γ : Type} {add : β → α → β}

theorem gatherOnto_append (table : Array β) (items more : List (Position × α)) :
    gatherOnto add table (items ++ more) = gatherOnto add (gatherOnto add table items) more := by
  rw [gatherOnto, List.filterMap_append, List.foldl_append]
  rfl

theorem gatherOnto_singleton (table : Array β) {p : Position} (hp : 0 < p) (value : α) :
    gatherOnto add table [(p, value)] = table.modify (p - 1) (add · value) := by
  simp [gatherOnto, Nat.ne_of_gt hp]

theorem foldlM_gatherOnto {step : Array β → γ → Except Failure (Array β)}
    {items : γ → List (Position × α)} {xs : List γ}
    (hstep : ∀ x ∈ xs, ∀ table, step table x = .ok (gatherOnto add table (items x)))
    (table : Array β) : xs.foldlM step table = .ok (gatherOnto add table (xs.flatMap items)) := by
  induction xs generalizing table with
  | nil => rfl
  | cons x xs ih =>
    rw [List.foldlM_cons, hstep x List.mem_cons_self, List.flatMap_cons, gatherOnto_append]
    exact ih (fun y hy => hstep y (List.mem_cons_of_mem x hy)) _

theorem addAt_eq {ps : Positions} {s : SortedSet} (hs : ∀ p ∈ s, 0 < p ∧ p ≤ ps.size)
    (table : Array β) (value : α) :
    addAt ps add table s value = .ok (gatherOnto add table (s.toList.map (·, value))) := by
  have hstep : ∀ p ∈ s.toList, ∀ table : Array β,
      (do let _ ← ps.occurrence p; return table.modify (p - 1) (add · value)) =
        Except.ok (gatherOnto add table [(p, value)]) := by
    intro p hp table
    obtain ⟨hpos, hle⟩ := hs p hp
    obtain ⟨o, ho⟩ := Positions.exists_get? hpos hle
    rw [Positions.occurrence, ho, gatherOnto_singleton table hpos]
    rfl
  rw [addAt, foldlM_gatherOnto hstep, ← List.map_eq_flatMap]

end

/-- What the topmost node of an expression lets follow, by position. -/
def followersOf (x : Expr (NodeId × Ends)) : List (Position × SortedSet) :=
  x.link?.toList.flatMap fun link => link.sources.toList.map (·, link.targets)

/-- The events of the topmost node of an expression, by position. -/
def eventsOf (x : Expr (NodeId × Ends)) : List (Position × CaptureEvent) :=
  x.group?.toList.flatMap Events.ofGroup

theorem addFollowers_eq (h : t.expr root = .ok e) (hx : x ∈ e.subexprs) (sets : Array SortedSet) :
    addFollowers t (.ofExpr t.size e) (tableOf t e) sets x.tag =
      .ok (gatherOnto (· ∪ ·) sets (followersOf (solvedIn t e x))) := by
  have hends : ∀ y ∈ x.parts, endsAt (tableOf t e) y.tag = .ok _ := fun y hy =>
    endsAt_eq h (mem_subexprs_of_mem_parts hx hy)
  rw [addFollowers, node_of_mem h hx]
  cases x with
  | leaf a l => rfl
  | concat a l r =>
    show (endsAt _ r.tag >>= fun next => endsAt _ l.tag >>= fun x =>
      addAt _ _ sets x.last next.first) = _
    rw [hends r (by simp [Expr.parts]), hends l (by simp [Expr.parts])]
    show addAt _ _ _ _ _ = _
    rw [addAt_eq fun p => le_size_of_mem_last]
    simp [followersOf, Expr.solve, Expr.link?, Expr.tag_solve]
  | alternation a l r => rfl
  | repetition a q y =>
    show (if q.canRepeat = true then t.node y.tag >>= fun n => if n = .leaf .empty then pure sets
      else endsAt _ y.tag >>= fun next => addAt _ _ sets next.last next.first else pure sets) = _
    rw [node_of_mem h (mem_subexprs_of_mem_parts hx (by simp [Expr.parts])),
      hends y (by simp [Expr.parts])]
    by_cases hq : q.canRepeat = true
    · rw [if_pos hq]
      show (if y.node = .leaf .empty then pure sets else addAt _ _ _ _ _) = _
      have hlink : followersOf (solvedIn t e (.repetition a q y)) =
          (endsIn t e y).last.toList.map (·, (endsIn t e y).first) := by
        simp [followersOf, Expr.solve, Expr.link?, Expr.tag_solve, hq]
      rw [hlink, addAt_eq fun p => le_size_of_mem_last]
      split
      next hy =>
        -- The empty leaf has no last positions.
        cases y <;> cases hy
        rfl
      next => rfl
    · rw [if_neg hq]
      simp [followersOf, Expr.solve, Expr.link?, hq]
      rfl
  | capture a g y => rfl

theorem addEvents_eq (h : t.expr root = .ok e) (hx : x ∈ e.subexprs)
    (lists : Array (List CaptureEvent)) :
    addEvents t (.ofExpr t.size e) (tableOf t e) lists x.tag =
      .ok (gatherOnto CaptureEvent.addNew lists (eventsOf (solvedIn t e x))) := by
  rw [addEvents, node_of_mem h hx]
  cases x with
  | leaf a l => rfl
  | concat a l r => rfl
  | alternation a l r => rfl
  | repetition a q y => rfl
  | capture a g y =>
    show (endsAt _ y.tag >>= fun inner => addAt _ _ lists inner.first _ >>= fun lists =>
      addAt _ _ lists inner.last _) = _
    rw [endsAt_eq h (mem_subexprs_of_mem_parts hx (by simp [Expr.parts]))]
    show (addAt _ _ lists _ _ >>= fun lists => addAt _ _ lists _ _) = _
    rw [addAt_eq fun p => le_size_of_mem_first]
    show addAt _ _ _ _ _ = _
    rw [addAt_eq fun p => le_size_of_mem_last, ← gatherOnto_append]
    simp [eventsOf, Expr.solve, Expr.group?, Expr.tag_solve, Events.ofGroup]

/-- Going through the nodes gathers what their topmost nodes give. -/
theorem flatMap_subexprs_solve {α β : Type} (f : Expr (NodeId × Ends) → Option α) (g : α → List β)
    (pos : NodeId → Option Position) :
    (e.subexprs.flatMap fun x => (f (x.solve pos)).toList.flatMap g) =
      ((e.solve pos).subexprs.filterMap f).flatMap g := by
  rw [List.filterMap_eq_flatMap_toList, Expr.subexprs_solve, List.flatMap_map, List.flatMap_assoc]

theorem addFollowers_foldlM (h : t.expr root = .ok e) :
    e.tags.foldlM (addFollowers t (.ofExpr t.size e) (tableOf t e))
        (Array.replicate (Positions.ofExpr t.size e).size ∅) =
      .ok (Follow.ofExpr (Positions.ofExpr t.size e).size (solvedIn t e e)).sets := by
  rw [Expr.tags, List.foldlM_map, foldlM_gatherOnto fun x hx sets => addFollowers_eq h hx sets]
  simp only [followersOf]
  rw [flatMap_subexprs_solve]
  rfl

theorem addEvents_foldlM (h : t.expr root = .ok e) :
    e.tags.foldlM (addEvents t (.ofExpr t.size e) (tableOf t e))
        (Array.replicate (Positions.ofExpr t.size e).size []) =
      .ok (Events.ofExpr (.ofExpr t.size e) (solvedIn t e e)).lists := by
  rw [Expr.tags, List.foldlM_map, foldlM_gatherOnto fun x hx lists => addEvents_eq h hx lists]
  simp only [eventsOf]
  rw [flatMap_subexprs_solve]
  rfl

/-- All that is looked up is found, and the tables are those of the analysis. -/
theorem analyze_eq (h : t.rootExpr = .ok e) (lazy captures : Bool) :
    analyze t lazy captures = .ok (.ofExpr t e lazy captures) := by
  obtain ⟨root, hroot⟩ := Analysis.exists_root_of_rootExpr h
  simp only [analyze, h, enterEnds_eq hroot, addFollowers_foldlM hroot, addEvents_foldlM hroot,
    bind, Except.bind]
  cases captures with
  | false => rfl
  | true => rfl

end Stepwise

end PositionAutomata
