import PositionAutomata.Analysis.Basic
import PositionAutomata.Proofs.Analysis.Tables

/-
  The lazy repetitions around positions.

  Where every leaf has a node of its own, the lazy parent of a position is that of
  its leaf (`parent?_eq_some_iff`). No leaf of an expression without lazy
  repetitions has one inside it, so all its leaves have the one around the
  expression (`Greedy.leaves_withLazyParents`), and no position is lazy if there
  is none (`parent?_of_greedy`).
-/

namespace PositionAutomata

namespace Expr

variable {e : Expr NodeId}

theorem Greedy.leaves_withLazyParents (h : e.Greedy) (parent : Option NodeId) :
    (e.withLazyParents parent).leaves = e.leaves.map fun x => ((x.1, parent), x.2) := by
  induction e with
  | leaf a l => rfl
  | concat a l r ihl ihr =>
    rw [withLazyParents, leaves_concat, leaves_concat, ihl h.1, ihr h.2, List.map_append]
  | alternation a l r ihl ihr =>
    rw [withLazyParents, leaves_alternation, leaves_alternation, ihl h.1, ihr h.2,
      List.map_append]
  | repetition a q e ih =>
    simp only [withLazyParents, h.1, leaves_repetition]
    exact ih h.2
  | capture a g e ih => exact ih h

theorem Greedy.lazyLeaves (h : e.Greedy) : e.lazyLeaves = [] := by
  rw [Expr.lazyLeaves, h.leaves_withLazyParents, List.filterMap_map, List.filterMap_eq_nil_iff]
  exact fun _ _ => rfl

/-- With the lazy repetitions around them the leaves are still those of the expression. -/
theorem map_leaves_withLazyParents (e : Expr NodeId) (parent : Option NodeId) :
    ((e.withLazyParents parent).leaves.map fun y => (y.1.1, y.2)) = e.leaves := by
  induction e generalizing parent with
  | leaf a l => rfl
  | concat a l r ihl ihr =>
    rw [withLazyParents, leaves_concat, leaves_concat, List.map_append, ihl, ihr]
  | alternation a l r ihl ihr =>
    rw [withLazyParents, leaves_alternation, leaves_alternation, List.map_append, ihl, ihr]
  | repetition a q e ih => exact ih _
  | capture a g e ih => exact ih _

theorem mem_lazyLeaves_iff {id r : NodeId} :
    (id, r) ∈ e.lazyLeaves ↔ ∃ l, ((id, some r), l) ∈ (e.withLazyParents none).leaves := by
  rw [Expr.lazyLeaves, List.mem_filterMap]
  constructor
  · intro h
    obtain ⟨⟨⟨_, parent⟩, l⟩, hy, h⟩ := h
    obtain ⟨_, rfl, h⟩ := Option.map_eq_some_iff.mp h
    cases h
    exact ⟨l, hy⟩
  · intro h
    obtain ⟨l, hy⟩ := h
    exact ⟨_, hy, rfl⟩

/-- Where every leaf has a node of its own, it has one lazy parent. -/
theorem lazyParent_unique (hnd : (e.leaves.map Prod.fst).Nodup) {id r s : NodeId}
    (hr : (id, r) ∈ e.lazyLeaves) (hs : (id, s) ∈ e.lazyLeaves) : r = s := by
  obtain ⟨l, hl⟩ := mem_lazyLeaves_iff.mp hr
  obtain ⟨m, hm⟩ := mem_lazyLeaves_iff.mp hs
  rw [← map_leaves_withLazyParents e none, List.map_map] at hnd
  have h := List.inj_on_of_nodup_map hnd hl hm rfl
  exact Option.some.inj (congrArg (fun y => y.1.2) h)

/-- The innermost lazy repetition around a leaf is the given one or one of the expression. -/
theorem mem_tags_of_mem_withLazyParents {e : Expr NodeId} {parent : Option NodeId} {id r : NodeId}
    {l : Leaf} (h : ((id, some r), l) ∈ (e.withLazyParents parent).leaves) :
    parent = some r ∨ r ∈ e.tags := by
  induction e generalizing parent with
  | leaf a k =>
    cases List.mem_singleton.mp h
    exact .inl rfl
  | concat a l r ihl ihr =>
    rw [withLazyParents, leaves_concat, List.mem_append] at h
    simp only [tags, subexprs_concat, List.map_cons, List.map_append, List.mem_cons,
      List.mem_append]
    rcases h with h | h
    · exact (ihl h).imp_right fun h => .inr (.inl h)
    · exact (ihr h).imp_right fun h => .inr (.inr h)
  | alternation a l r ihl ihr =>
    rw [withLazyParents, leaves_alternation, List.mem_append] at h
    simp only [tags, subexprs_alternation, List.map_cons, List.map_append, List.mem_cons,
      List.mem_append]
    rcases h with h | h
    · exact (ihl h).imp_right fun h => .inr (.inl h)
    · exact (ihr h).imp_right fun h => .inr (.inr h)
  | repetition a q e ih =>
    rw [tags, subexprs_repetition, List.map_cons, List.mem_cons]
    have h : (if q.lazy then some a else parent) = some r ∨ r ∈ e.tags := ih h
    cases hq : q.lazy with
    | true =>
      rw [hq] at h
      exact h.elim (fun h => .inr (.inl (Option.some.inj h).symm)) fun h => .inr (.inr h)
    | false =>
      rw [hq] at h
      exact h.imp_right .inr
  | capture a g e ih =>
    rw [tags, subexprs_capture, List.map_cons, List.mem_cons]
    exact (ih h).imp_right .inr

end Expr

namespace Laziness

/-- Of the values that are offered one after the other the first is kept. -/
theorem foldl_or {α β : Type} (value : α → β) (items : List α) (start : Option β) :
    items.foldl (fun kept x => kept.or (some (value x))) start =
      start.or (items.head?.map value) := by
  induction items generalizing start with
  | nil => simp
  | cons x items ih =>
    rw [List.foldl_cons, ih]
    cases start <;> rfl

variable {size : Nat} {e : Expr NodeId} {p : Position} {r : NodeId}

/-- The lazy parent of a position is that of its leaf. -/
theorem parent?_eq_some_iff (hnd : (e.leaves.map Prod.fst).Nodup)
    (hb : ∀ y ∈ e.leaves, y.1 < size) :
    (ofExpr (.ofExpr size e) e).parent? p = some r ↔ ∃ x, e.At p x ∧ (x.1, r) ∈ e.lazyLeaves := by
  have hpos : ∀ {x}, e.At p x → (Positions.ofExpr size e).nodePosition? x.1 = some p := fun hx =>
    (Positions.nodePosition?_iff hnd hb hx.mem).mpr hx
  -- What is gathered for the position are the parents of its leaf.
  have hitem : ∀ {i : Position × NodeId}, i ∈ (e.lazyLeaves.filterMap fun y =>
        ((Positions.ofExpr size e).nodePosition? y.1).map (·, y.2)).filter (·.1 = p) ↔
      i.1 = p ∧ ∃ x, e.At p x ∧ (x.1, i.2) ∈ e.lazyLeaves := by
    intro i
    rw [List.mem_filter, List.mem_filterMap, decide_eq_true_eq]
    constructor
    · intro h
      obtain ⟨⟨⟨id, _⟩, hy, h⟩, hp⟩ := h
      obtain ⟨_, ho, rfl⟩ := Option.map_eq_some_iff.mp h
      obtain rfl := hp
      obtain ⟨l, hl⟩ := Positions.at_of_nodePosition? ho
      exact ⟨rfl, (id, l), hl, hy⟩
    · intro h
      obtain ⟨hp, x, hx, hy⟩ := h
      exact ⟨⟨_, hy, by simp [hpos hx, ← hp]⟩, hp⟩
  rw [parent?, ofExpr, Positions.valueAt?_gather, foldl_or Prod.snd]
  constructor
  · intro h
    split at h
    next =>
      obtain ⟨i, hi, rfl⟩ := Option.map_eq_some_iff.mp h
      exact (hitem.mp (List.mem_of_head? hi)).2
    next => exact absurd h (by simp)
  · intro h
    obtain ⟨x, hx, hr⟩ := h
    rw [if_pos (Positions.le_size_of_nodePosition? (hpos hx))]
    have hne := List.ne_nil_of_mem (hitem (i := (p, r)).mpr ⟨rfl, x, hx, hr⟩)
    obtain ⟨i, hi⟩ := Option.isSome_iff_exists.mp (List.isSome_head?.mpr hne)
    obtain ⟨_, y, hy, hs⟩ := hitem.mp (List.mem_of_head? hi)
    obtain rfl := hx.unique hy
    rw [hi, Expr.lazyParent_unique hnd hr hs]
    rfl

/-- No position of an expression without lazy repetitions is lazy. -/
theorem parent?_of_greedy {ps : Positions} (h : e.Greedy) (p : Position) :
    (ofExpr ps e).parent? p = none := by
  rw [parent?, ofExpr, h.lazyLeaves, List.filterMap_nil, Positions.valueAt?_gather]
  split <;> rfl

theorem parent?_greedy (ps : Positions) (p : Position) :
    (greedy ps).parent? p = none := by
  rw [parent?, greedy, Positions.valueAt?]
  split
  · rfl
  · rw [Array.getElem?_replicate]
    split <;> rfl

end Laziness

/-- No position of an analysed expression without lazy repetitions is lazy. -/
theorem Analysis.parent?_of_greedy {t : Tree} {e : Expr NodeId} {lazy captures : Bool}
    (h : e.Greedy) (p : Position) : (ofExpr t e lazy captures).laziness.parent? p = none := by
  rw [ofExpr]
  cases lazy with
  | false => exact Laziness.parent?_greedy _ p
  | true => exact Laziness.parent?_of_greedy h p

end PositionAutomata
