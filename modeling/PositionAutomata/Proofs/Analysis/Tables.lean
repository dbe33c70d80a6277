import Mathlib.Data.List.Nodup
import PositionAutomata.Analysis.Basic
import PositionAutomata.Proofs.Expr.Words
import PositionAutomata.Proofs.Tree.Unfolding

/-
  What the tables of an analysis say about the expression.

  `Expr.At` is the leaf at a position. Where every leaf has a node of its own,
  the position of a node is where its leaf stands (`nodePosition?_iff`); the
  first positions of the expression are those of the leaves that may begin a
  word (`mem_first_iff`), and a position follows another exactly if its leaf may
  stand right after the other one in a word (`mem_after_iff`).
-/

namespace PositionAutomata

/-- The leaf at a position of an expression. -/
def Expr.At {α : Type} (e : Expr α) (p : Position) (x : α × Leaf) : Prop :=
  0 < p ∧ e.leaves[p - 1]? = some x

theorem Expr.At.mem {α : Type} {e : Expr α} {p : Position} {x : α × Leaf} (h : e.At p x) :
    x ∈ e.leaves :=
  List.mem_of_getElem? h.2

theorem Expr.At.unique {α : Type} {e : Expr α} {p : Position} {x y : α × Leaf} (hx : e.At p x)
    (hy : e.At p y) : x = y :=
  Option.some.inj (hx.2.symm.trans hy.2)

theorem Expr.exists_at {α : Type} {e : Expr α} {x : α × Leaf} (h : x ∈ e.leaves) :
    ∃ p, e.At p x := by
  obtain ⟨i, hi⟩ := List.mem_iff_getElem?.mp h
  exact ⟨i + 1, Nat.succ_pos i, hi⟩

theorem Expr.leaves_subset_of_mem_subexprs {α : Type} {e x : Expr α} (hx : x ∈ e.subexprs) :
    x.leaves ⊆ e.leaves := by
  induction e with
  | leaf a l => rw [List.mem_singleton.mp hx]; exact List.Subset.refl _
  | concat a l r ihl ihr =>
    rw [subexprs_concat, List.mem_cons, List.mem_append] at hx
    rw [leaves_concat]
    rcases hx with rfl | hx | hx
    · rw [leaves_concat]; exact List.Subset.refl _
    · exact List.subset_append_of_subset_left _ (ihl hx)
    · exact List.subset_append_of_subset_right _ (ihr hx)
  | alternation a l r ihl ihr =>
    rw [subexprs_alternation, List.mem_cons, List.mem_append] at hx
    rw [leaves_alternation]
    rcases hx with rfl | hx | hx
    · rw [leaves_alternation]; exact List.Subset.refl _
    · exact List.subset_append_of_subset_left _ (ihl hx)
    · exact List.subset_append_of_subset_right _ (ihr hx)
  | repetition a q e ih =>
    rw [subexprs_repetition, List.mem_cons] at hx
    rcases hx with rfl | hx
    · exact List.Subset.refl _
    · exact ih hx
  | capture a g e ih =>
    rw [subexprs_capture, List.mem_cons] at hx
    rcases hx with rfl | hx
    · exact List.Subset.refl _
    · exact ih hx

/-! ## Tables that are written entry by entry -/

section

variable {α β : Type} (key : α → Nat) (value : α → β)

/-- An entry is as it was or is the value of an item that names it. -/
theorem of_getElem?_foldl_set {items : List α} {table : Array β} {i : Nat} {b : β}
    (h : (items.foldl (fun t a => t.setIfInBounds (key a) (value a)) table)[i]? = some b) :
    table[i]? = some b ∨ ∃ a ∈ items, key a = i ∧ value a = b := by
  induction items generalizing table with
  | nil => exact .inl h
  | cons a items ih =>
    rcases ih h with h | ⟨a', ha', h⟩
    · rw [Array.getElem?_setIfInBounds] at h
      split at h
      next hk =>
        split at h
        · exact .inr ⟨a, by simp, hk, Option.some.inj h⟩
        · exact absurd h (by simp)
      next => exact .inl h
    · exact .inr ⟨a', List.mem_cons_of_mem _ ha', h⟩

theorem size_foldl_set (items : List α) (table : Array β) :
    (items.foldl (fun t a => t.setIfInBounds (key a) (value a)) table).size = table.size :=
  List.foldlRecOn (motive := fun t : Array β => t.size = table.size) items _ rfl
    fun _ ht _ _ => Array.size_setIfInBounds.trans ht

/-- An entry that items name is the value of one of them. -/
theorem getElem?_foldl_set {items : List α} (table : Array β) {a : α} (ha : a ∈ items)
    (hlt : key a < table.size) :
    ∃ a' ∈ items, key a' = key a ∧
      (items.foldl (fun t a => t.setIfInBounds (key a) (value a)) table)[key a]? =
        some (value a') := by
  induction items generalizing table with
  | nil => exact absurd ha (by simp)
  | cons b items ih =>
    rw [List.foldl_cons]
    have hlt' : key a < (table.setIfInBounds (key b) (value b)).size := by
      rwa [Array.size_setIfInBounds]
    by_cases hin : a ∈ items
    · obtain ⟨a', ha', h⟩ := ih _ hin hlt'
      exact ⟨a', List.mem_cons_of_mem _ ha', h⟩
    · obtain rfl : a = b := (List.mem_cons.mp ha).resolve_right hin
      obtain ⟨v, hv⟩ : ∃ v, (items.foldl (fun t a => t.setIfInBounds (key a) (value a))
          (table.setIfInBounds (key a) (value a)))[key a]? = some v := by
        rw [← size_foldl_set key value items] at hlt'
        exact ⟨_, Array.getElem?_eq_getElem hlt'⟩
      rcases of_getElem?_foldl_set key value hv with h | ⟨a', ha', hk, rfl⟩
      · refine ⟨a, by simp, rfl, ?_⟩
        rw [Array.getElem?_setIfInBounds_self_of_lt hlt] at h
        rw [hv, h]
      · exact ⟨a', List.mem_cons_of_mem _ ha', hk, hv⟩

/-- Where items that name one entry agree, the last ones may as well be written first. -/
theorem foldl_set_reverse {items : List α} (table : Array β)
    (h : ∀ a ∈ items, ∀ b ∈ items, key a = key b → value a = value b) :
    items.reverse.foldl (fun t a => t.setIfInBounds (key a) (value a)) table =
      items.foldl (fun t a => t.setIfInBounds (key a) (value a)) table := by
  apply Array.ext_getElem?
  intro i
  by_cases hi : ∃ a ∈ items, key a = i
  · obtain ⟨a, ha, rfl⟩ := hi
    by_cases hlt : key a < table.size
    · obtain ⟨b, hb, hkb, hgetb⟩ := getElem?_foldl_set key value table (List.mem_reverse.mpr ha) hlt
      obtain ⟨c, hc, hkc, hgetc⟩ := getElem?_foldl_set key value table ha hlt
      rw [hgetb, hgetc, h b (List.mem_reverse.mp hb) c hc (hkb.trans hkc.symm)]
    · have hnone : ∀ xs : List α, (xs.foldl (fun t a => t.setIfInBounds (key a) (value a))
          table)[key a]? = none := fun xs => Array.getElem?_eq_none (by
        rw [size_foldl_set]
        exact Nat.le_of_not_lt hlt)
      rw [hnone, hnone]
  · have hkeep : ∀ xs : List α, (∀ x ∈ xs, x ∈ items) →
        (xs.foldl (fun t a => t.setIfInBounds (key a) (value a)) table)[i]? = table[i]? := by
      intro xs hxs
      cases hget : (xs.foldl (fun t a => t.setIfInBounds (key a) (value a)) table)[i]? with
      | none =>
        rw [Array.getElem?_eq_none_iff, size_foldl_set] at hget
        rw [Array.getElem?_eq_none hget]
      | some b =>
        rcases of_getElem?_foldl_set key value hget with h | ⟨a, ha, hk, _⟩
        · rw [h]
        · exact absurd ⟨a, hxs a ha, hk⟩ hi
    rw [hkeep items fun _ hx => hx, hkeep items.reverse fun _ hx => List.mem_reverse.mp hx]

end

/-! ## Positions -/

namespace Positions

variable {size : Nat} {e : Expr NodeId} {p : Position} {id : NodeId} {l : Leaf}

theorem size_ofExpr : (ofExpr size e).size = e.leaves.length := by
  simp [ofExpr, Positions.size]

theorem get?_ofExpr {o : Occurrence} :
    (ofExpr size e).get? p = some o ↔ ∃ x, e.At p x ∧ o = .ofLeaf x.1 x.2 := by
  rw [get?, valueAt?_eq_some_iff]
  simp only [ofExpr, List.getElem?_toArray, List.getElem?_map, Option.map_eq_some_iff, Expr.At,
    and_assoc, exists_and_left]
  exact and_congr_right fun _ => exists_congr fun x => and_congr_right fun _ => eq_comm

theorem exists_get? {ps : Positions} (hpos : 0 < p) (hle : p ≤ ps.size) :
    ∃ o, ps.get? p = some o :=
  ⟨_, valueAt?_eq_some_iff.mpr
    ⟨hpos, Array.getElem?_eq_getElem (Nat.sub_one_lt_of_le hpos hle)⟩⟩

/-- Every leaf has a position. -/
theorem exists_nodePosition? {y : NodeId × Leaf} (hy : y ∈ e.leaves) (hlt : y.1 < size) :
    ∃ p, (ofExpr size e).nodePosition? y.1 = some p := by
  obtain ⟨i, hi⟩ := List.mem_iff_getElem?.mp hy
  obtain ⟨⟨_, j⟩, _, _, hget⟩ := getElem?_foldl_set (fun x : (NodeId × Leaf) × Nat => x.1.1)
    (fun x => some (x.2 + 1)) (Array.replicate size (none : Option Position))
    (List.mem_zipIdx_iff_getElem?.mpr hi : (y, i) ∈ e.leaves.zipIdx) (by simpa using hlt)
  exact ⟨j + 1, Option.join_eq_some_iff.mpr hget⟩

theorem at_of_nodePosition? (h : (ofExpr size e).nodePosition? id = some p) :
    ∃ l, e.At p (id, l) := by
  have ho := Option.join_eq_some_iff.mp h
  rcases of_getElem?_foldl_set (fun x : (NodeId × Leaf) × Nat => x.1.1)
    (fun x => some (x.2 + 1)) ho with h | ⟨⟨⟨id', l⟩, i⟩, hm, rfl, hv⟩
  · rw [Array.getElem?_replicate] at h
    split at h <;> exact absurd h (by simp)
  · obtain rfl := Option.some.inj hv
    exact ⟨l, Nat.succ_pos i, List.mem_zipIdx_iff_getElem?.mp hm⟩

theorem nodePosition?_iff (hnd : (e.leaves.map Prod.fst).Nodup) (hb : ∀ y ∈ e.leaves, y.1 < size)
    {x : NodeId × Leaf} (hx : x ∈ e.leaves) :
    (ofExpr size e).nodePosition? x.1 = some p ↔ e.At p x := by
  have same : ∀ {y}, y ∈ e.leaves → y.1 = x.1 → y = x := fun hy h =>
    List.inj_on_of_nodup_map hnd hy hx h
  constructor
  · intro h
    obtain ⟨l, hl⟩ := at_of_nodePosition? h
    rwa [← same hl.mem rfl]
  · intro h
    obtain ⟨hpos, hget⟩ := h
    have hm : (x, p - 1) ∈ e.leaves.zipIdx := List.mem_zipIdx_iff_getElem?.mpr hget
    obtain ⟨⟨y, j⟩, hy, hk, h⟩ := getElem?_foldl_set
      (fun x : (NodeId × Leaf) × Nat => x.1.1) (fun x => some (x.2 + 1))
      (Array.replicate size (none : Option Position)) hm (by simpa using hb x hx)
    have hyj := List.mem_zipIdx_iff_getElem?.mp hy
    obtain rfl := same (List.mem_of_getElem? hyj) hk
    have hj : j = p - 1 := by
      obtain ⟨hlt, _⟩ := List.getElem?_eq_some_iff.mp hyj
      exact (List.getElem?_inj hlt hnd.of_map).mp (hyj.trans hget.symm)
    simp only [hj] at h
    rw [Nat.sub_add_cancel hpos] at h
    exact Option.join_eq_some_iff.mpr h

theorem le_size_of_nodePosition? (h : (ofExpr size e).nodePosition? id = some p) :
    0 < p ∧ p ≤ (ofExpr size e).size := by
  obtain ⟨l, hpos, hget⟩ := at_of_nodePosition? h
  obtain ⟨hlt, _⟩ := List.getElem?_eq_some_iff.mp hget
  rw [size_ofExpr]
  exact ⟨hpos, Nat.le_of_pred_lt hlt⟩

end Positions

/-! ## Ends and links -/

namespace Expr

variable {pos : NodeId → Option Position} {e : Expr NodeId} {p q : Position}

theorem nullable_ends (pos : NodeId → Option Position) {e : Expr NodeId} :
    (e.ends pos).nullable = true ↔ e.Nullable := by
  induction e with
  | leaf a l =>
    rw [ends, leafEnds]
    by_cases hl : l = .empty
    · simp [Nullable, hl, Leaf.isEmpty, Ends.empty]
    · cases h : pos a <;> simp [Nullable, hl, Leaf.isEmpty, Ends.none, Ends.single]
  | concat a l r ihl ihr => simp [ends, Ends.concat, Nullable, ihl, ihr]
  | alternation a l r ihl ihr => simp [ends, Ends.alternation, Nullable, ihl, ihr]
  | repetition a q e ih => simp [ends, Ends.repetition, Nullable, ih]
  | capture a g e ih => exact ih

theorem mem_first_ends : p ∈ (e.ends pos).first ↔ ∃ x, e.First x ∧ pos x.1 = some p := by
  induction e with
  | leaf a l =>
    rw [ends, leafEnds]
    by_cases hl : l = .empty
    · simp [First, hl, Leaf.isEmpty, Ends.empty]
    · cases h : pos a with
      | none => simp [First, hl, Leaf.isEmpty, Ends.none, h]
      | some o => simp [First, hl, Leaf.isEmpty, Ends.single, h, eq_comm]
  | concat a l r ihl ihr =>
    simp only [ends, Ends.concat, First, or_and_right, exists_or, and_assoc, exists_and_left]
    rw [← ihl, ← ihr, ← nullable_ends pos]
    split <;> simp_all
  | alternation a l r ihl ihr =>
    simp only [ends, Ends.alternation, First, SortedSet.mem_union, ihl, ihr, or_and_right,
      exists_or]
  | repetition a q e ih => exact ih
  | capture a g e ih => exact ih

theorem mem_last_ends : p ∈ (e.ends pos).last ↔ ∃ x, e.Last x ∧ pos x.1 = some p := by
  induction e with
  | leaf a l =>
    rw [ends, leafEnds]
    by_cases hl : l = .empty
    · simp [Last, hl, Leaf.isEmpty, Ends.empty]
    · cases h : pos a with
      | none => simp [Last, hl, Leaf.isEmpty, Ends.none, h]
      | some o => simp [Last, hl, Leaf.isEmpty, Ends.single, h, eq_comm]
  | concat a l r ihl ihr =>
    simp only [ends, Ends.concat, Last, or_and_right, exists_or, and_assoc, exists_and_left]
    rw [← ihl, ← ihr, ← nullable_ends pos]
    split <;> simp_all
  | alternation a l r ihl ihr =>
    simp only [ends, Ends.alternation, Last, SortedSet.mem_union, ihl, ihr, or_and_right, exists_or]
  | repetition a q e ih => exact ih
  | capture a g e ih => exact ih

theorem links_leaf (a : NodeId) (l : Leaf) : ((leaf a l).solve pos).links = [] := rfl

theorem links_concat (a : NodeId) (l r : Expr NodeId) :
    ((concat a l r).solve pos).links =
      ⟨(l.ends pos).last, (r.ends pos).first⟩ :: ((l.solve pos).links ++ (r.solve pos).links) := by
  simp [solve, links, link?, tag_solve]

theorem links_alternation (a : NodeId) (l r : Expr NodeId) :
    ((alternation a l r).solve pos).links = (l.solve pos).links ++ (r.solve pos).links := by
  simp [solve, links, link?, List.filterMap_cons]

theorem links_repetition (a : NodeId) (q : Quantifier) (e : Expr NodeId) :
    ((repetition a q e).solve pos).links =
      (if q.canRepeat then [⟨(e.ends pos).last, (e.ends pos).first⟩] else []) ++
        (e.solve pos).links := by
  by_cases h : q.canRepeat = true <;> simp [solve, links, link?, tag_solve, h]

theorem links_capture (a : NodeId) (g : Group) (e : Expr NodeId) :
    ((capture a g e).solve pos).links = (e.solve pos).links := by
  simp [solve, links, link?, List.filterMap_cons]

/-- A link from the last positions of a part to the first ones of another joins the positions of
leaves that end and begin them. -/
theorem linked_iff {l r : Expr NodeId} :
    (p ∈ (l.ends pos).last ∧ q ∈ (r.ends pos).first) ↔
      ∃ x y, (l.Last x ∧ r.First y) ∧ pos x.1 = some p ∧ pos y.1 = some q := by
  rw [mem_last_ends, mem_first_ends]
  constructor
  · intro h
    obtain ⟨⟨x, hx, hp⟩, y, hy, hq⟩ := h
    exact ⟨x, y, ⟨hx, hy⟩, hp, hq⟩
  · intro h
    obtain ⟨x, y, ⟨hx, hy⟩, hp, hq⟩ := h
    exact ⟨⟨x, hx, hp⟩, y, hy, hq⟩

/-- Two positions are linked at some place if their leaves may be neighbours. -/
theorem exists_link_iff :
    (∃ link ∈ (e.solve pos).links, p ∈ link.sources ∧ q ∈ link.targets) ↔
      ∃ x y, e.Follows x y ∧ pos x.1 = some p ∧ pos y.1 = some q := by
  induction e with
  | leaf a l => simp [links_leaf, Follows]
  | concat a l r ihl ihr =>
    simp only [links_concat, List.mem_cons, List.mem_append, or_and_right, exists_or,
      exists_eq_left, ihl, ihr, linked_iff, Follows]
    exact ⟨fun h => h.elim (fun h => .inr (.inr h)) (fun h => h.imp id .inl),
      fun h => h.elim (fun h => .inr (.inl h)) fun h => h.elim (fun h => .inr (.inr h)) .inl⟩
  | alternation a l r ihl ihr =>
    simp only [links_alternation, List.mem_append, or_and_right, exists_or, ihl, ihr, Follows]
  | repetition a q e ih =>
    by_cases hq : q.canRepeat = true
    · simp only [links_repetition, hq, if_true, List.mem_append, List.mem_singleton, or_and_right,
        exists_or, exists_eq_left, ih, linked_iff, Follows, true_and]
      exact or_comm
    · simp only [links_repetition, hq, Bool.false_eq_true, if_false, List.nil_append, ih, Follows,
        false_and, or_false]
  | capture a g e ih =>
    rw [links_capture]
    exact ih

theorem subexprs_solve : (e.solve pos).subexprs = e.subexprs.map (solve pos) := by
  induction e with
  | leaf a l => rfl
  | concat a l r ihl ihr => simp [solve, ihl, ihr]
  | alternation a l r ihl ihr => simp [solve, ihl, ihr]
  | repetition a q e ih => simp [solve, ih]
  | capture a g e ih => simp [solve, ih]

theorem tags_solve : (e.solve pos).tags = e.subexprs.map fun x => (x.tag, x.ends pos) := by
  rw [tags, subexprs_solve, List.map_map]
  exact List.map_congr_left fun x _ => tag_solve pos x

end Expr

/-! ## The analysis of an expression -/

/-- The first positions and the following ones exist. -/
structure Analysis.Bounded (a : Analysis) : Prop where
  first : ∀ p ∈ (a.endsOf a.expr.tag).first, 0 < p ∧ p ≤ a.positions.size
  after : ∀ p, ∀ q ∈ a.follow.after p, 0 < q ∧ q ≤ a.positions.size

namespace Analysis

variable {t : Tree} {e : Expr NodeId} {lazy captures : Bool} {p q : Position}

/-- The ends that the table has for a part of the expression are those of the part. -/
theorem endsOf_of_mem {root : NodeId} (h : t.expr root = .ok e) {x : Expr NodeId}
    (hx : x ∈ e.subexprs) :
    (ofExpr t e lazy captures).endsOf x.tag =
      x.ends (Positions.ofExpr t.size e).nodePosition? := by
  have hexpr := Tree.expr_of_mem_subexprs h
  have hm := List.mem_map_of_mem (f := fun x : Expr NodeId =>
    (x.tag, x.ends (Positions.ofExpr t.size e).nodePosition?)) hx
  obtain ⟨_, hmem, hk, hget⟩ := getElem?_foldl_set (fun x : NodeId × Ends => x.1) (fun x => x.2)
    (Array.replicate t.size Ends.none) hm (by simpa using Tree.lt_size_of_expr (hexpr x hx))
  obtain ⟨y, hy, rfl⟩ := List.mem_map.mp hmem
  -- The entry may have been written for another part with this tag, which is the same part.
  obtain rfl : y = x := Tree.eq_of_tag_eq h hy hx hk
  rw [endsOf, ofExpr, endsTable, Expr.tags_solve, hget]
  rfl

/-- The ends that the table has for the root are those of the expression. -/
theorem endsOf_root {root : NodeId} (h : t.expr root = .ok e) :
    (ofExpr t e lazy captures).endsOf e.tag =
      e.ends (Positions.ofExpr t.size e).nodePosition? :=
  endsOf_of_mem h e.mem_subexprs_self

/-- The first positions of a part of the expression are those of the leaves that may begin it. -/
theorem mem_first_of_mem_iff {root : NodeId} (h : t.expr root = .ok e)
    (hnd : (e.leaves.map Prod.fst).Nodup) (hb : ∀ y ∈ e.leaves, y.1 < t.size) {x : Expr NodeId}
    (hx : x ∈ e.subexprs) :
    p ∈ ((ofExpr t e lazy captures).endsOf x.tag).first ↔ ∃ y, x.First y ∧ e.At p y := by
  rw [endsOf_of_mem h hx, Expr.mem_first_ends]
  refine exists_congr fun y => and_congr_right fun hy => ?_
  exact Positions.nodePosition?_iff hnd hb
    (Expr.leaves_subset_of_mem_subexprs hx (Expr.mem_leaves_of_first hy))

theorem mem_first_iff {root : NodeId} (h : t.expr root = .ok e)
    (hnd : (e.leaves.map Prod.fst).Nodup) (hb : ∀ y ∈ e.leaves, y.1 < t.size) :
    p ∈ ((ofExpr t e lazy captures).endsOf e.tag).first ↔ ∃ x, e.First x ∧ e.At p x :=
  mem_first_of_mem_iff h hnd hb e.mem_subexprs_self

theorem mem_after_iff (hnd : (e.leaves.map Prod.fst).Nodup) (hb : ∀ y ∈ e.leaves, y.1 < t.size) :
    q ∈ (ofExpr t e lazy captures).follow.after p ↔
      ∃ x y, e.Follows x y ∧ e.At p x ∧ e.At q y := by
  have hpos : ∀ {x}, x ∈ e.leaves → ∀ {p}, (Positions.ofExpr t.size e).nodePosition? x.1 = some p ↔
      e.At p x := fun hx _ => Positions.nodePosition?_iff hnd hb hx
  show q ∈ (Follow.ofLinks _ _).after p ↔ _
  rw [Follow.mem_after_ofLinks, Expr.exists_link_iff]
  constructor
  · intro h
    obtain ⟨_, x, y, hxy, hx, hy⟩ := h
    obtain ⟨hmx, hmy⟩ := Expr.mem_leaves_of_follows hxy
    exact ⟨x, y, hxy, (hpos hmx).mp hx, (hpos hmy).mp hy⟩
  · intro h
    obtain ⟨x, y, hxy, hx, hy⟩ := h
    have hp := (hpos hx.mem).mpr hx
    exact ⟨Positions.le_size_of_nodePosition? hp, x, y, hxy, hp, (hpos hy.mem).mpr hy⟩

theorem bounded_ofExpr {root : NodeId} (h : t.expr root = .ok e) :
    (ofExpr t e lazy captures).Bounded where
  first p hp := by
    have hp : p ∈ ((ofExpr t e lazy captures).endsOf e.tag).first := hp
    rw [endsOf_root h, Expr.mem_first_ends] at hp
    obtain ⟨x, _, hx⟩ := hp
    exact Positions.le_size_of_nodePosition? hx
  after p q hq := by
    obtain ⟨_, h⟩ := Follow.mem_after_ofLinks.mp hq
    obtain ⟨x, y, _, _, hy⟩ := Expr.exists_link_iff.mp h
    exact Positions.le_size_of_nodePosition? hy

end Analysis

end PositionAutomata
