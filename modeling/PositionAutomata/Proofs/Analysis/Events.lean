import PositionAutomata.Proofs.Analysis.Tables

/-
  Which events positions carry.

  Events of one group and one kind are the same event, so of a list of events it
  matters which groups it marks (`CaptureEvent.Marks`). Leaving out repeated
  events and sorting the others change nothing about that, so a set of positions
  marks what its members mark (`Events.marks_ofSet_iff`). A position marks the
  start of a group exactly if its leaf may begin what the group holds, and the end
  if it may end it (`Analysis.marks_ofPosition_iff`).
-/

namespace PositionAutomata

namespace CaptureEvent

/-- Some of the events is the start, or the end, of a group with this number. -/
def Marks (es : List CaptureEvent) (n : Nat) (isStart : Bool) : Prop :=
  ∃ e ∈ es, e.group = n ∧ e.isStart = isStart

variable {es fs : List CaptureEvent} {n : Nat} {isStart : Bool}

theorem not_marks_nil : ¬ Marks [] n isStart := fun h =>
  h.elim fun _ h => absurd h.1 List.not_mem_nil

theorem marks_append_iff :
    Marks (es ++ fs) n isStart ↔ Marks es n isStart ∨ Marks fs n isStart := by
  simp only [Marks, List.mem_append, or_and_right, exists_or]

theorem marks_addNew_iff {e : CaptureEvent} :
    Marks (addNew es e) n isStart ↔ Marks es n isStart ∨ Marks [e] n isStart := by
  rw [addNew]
  split
  next h =>
    -- An event that is left out is the same as one that is there.
    refine ⟨.inl, fun hm => hm.elim id fun hm => ?_⟩
    obtain ⟨f, hf, hsame⟩ := List.any_eq_true.mp h
    obtain ⟨_, he, rfl, rfl⟩ := hm
    obtain rfl := List.mem_singleton.mp he
    simp only [same, Bool.and_eq_true, decide_eq_true_eq] at hsame
    exact ⟨f, hf, hsame.1.symm, hsame.2.symm⟩
  next => exact marks_append_iff

theorem marks_foldl_addNew_iff :
    Marks (fs.foldl addNew es) n isStart ↔ Marks es n isStart ∨ Marks fs n isStart := by
  induction fs generalizing es with
  | nil => simp [not_marks_nil]
  | cons f fs ih => rw [List.foldl_cons, ih, marks_addNew_iff, or_assoc, ← marks_append_iff,
      List.singleton_append]

theorem marks_distinct_iff : Marks (distinct es) n isStart ↔ Marks es n isStart := by
  rw [distinct, marks_foldl_addNew_iff, or_iff_right not_marks_nil]

end CaptureEvent

open CaptureEvent

namespace Events

variable {n : Nat} {isStart : Bool} {p : Position}

/-- A set of positions marks what its members mark. -/
theorem marks_ofSet_iff {es : Events} {s : SortedSet} :
    Marks (es.ofSet s) n isStart ↔ ∃ p ∈ s, Marks (es.ofPosition p) n isStart := by
  have hsort : Marks (es.ofSet s) n isStart ↔
      Marks (distinct (s.toList.flatMap es.ofPosition)) n isStart := by
    simp only [Marks, ofSet, List.mem_mergeSort]
  rw [hsort, marks_distinct_iff]
  simp only [Marks, List.mem_flatMap]
  constructor
  · intro h
    obtain ⟨e, ⟨p, hp, he⟩, hn⟩ := h
    exact ⟨p, hp, e, he, hn⟩
  · intro h
    obtain ⟨p, hp, e, he, hn⟩ := h
    exact ⟨e, ⟨p, hp, he⟩, hn⟩

/-- The positions with the start of a group are the first ones of what it holds, those with the end
the last ones. -/
theorem mem_ofGroup_iff {g : Group} {ends : Ends} :
    (∃ e, (p, e) ∈ ofGroup (g, ends) ∧ e.group = n ∧ e.isStart = isStart) ↔
      g.number = n ∧ p ∈ if isStart then ends.first else ends.last := by
  simp only [ofGroup, List.mem_append, List.mem_map, Prod.mk.injEq]
  constructor
  · intro h
    obtain ⟨e, ⟨_, hp, rfl, rfl⟩ | ⟨_, hp, rfl, rfl⟩, rfl, rfl⟩ := h
    · exact ⟨rfl, hp⟩
    · exact ⟨rfl, hp⟩
  · intro h
    obtain ⟨rfl, hp⟩ := h
    cases isStart with
    | true => exact ⟨_, .inl ⟨p, hp, rfl, rfl⟩, rfl, rfl⟩
    | false => exact ⟨_, .inr ⟨p, hp, rfl, rfl⟩, rfl, rfl⟩

/-- A position marks what the groups mark that it is a first or a last position of. -/
theorem marks_ofPosition_iff {α : Type} {ps : Positions} {e : Expr (α × Ends)} (hp : 0 < p)
    (hsize : p ≤ ps.size) : Marks ((ofExpr ps e).ofPosition p) n isStart ↔
      ∃ x ∈ e.captures, x.1.number = n ∧ p ∈ if isStart then x.2.first else x.2.last := by
  have hvalue : (ofExpr ps e).ofPosition p =
      (((e.captures.flatMap ofGroup).filter fun i => i.1 = p).map Prod.snd).foldl addNew [] := by
    rw [ofPosition, ofExpr, Positions.valueAt?_gather, if_pos ⟨hp, hsize⟩, List.foldl_map]
    rfl
  rw [hvalue, marks_foldl_addNew_iff, or_iff_right not_marks_nil]
  simp only [← mem_ofGroup_iff, Marks, List.mem_map, List.mem_filter, List.mem_flatMap,
    decide_eq_true_eq]
  constructor
  · intro h
    obtain ⟨_, ⟨⟨_, ev⟩, ⟨⟨x, hx, hmem⟩, rfl⟩, rfl⟩, hn⟩ := h
    exact ⟨x, hx, ev, hmem, hn⟩
  · intro h
    obtain ⟨x, hx, ev, hmem, hn⟩ := h
    exact ⟨ev, ⟨(p, ev), ⟨⟨x, hx, hmem⟩, rfl⟩, rfl⟩, hn⟩

end Events

namespace Expr

theorem mem_captures_solve {pos : NodeId → Option Position} {e : Expr NodeId} {x : Group × Ends} :
    x ∈ (e.solve pos).captures ↔ ∃ a z, capture a x.1 z ∈ e.subexprs ∧ z.ends pos = x.2 := by
  rw [captures, subexprs_solve, List.filterMap_map, List.mem_filterMap]
  constructor
  · intro h
    obtain ⟨y, hy, hx⟩ := h
    cases y with
    | capture a g z =>
      obtain rfl := Option.some.inj hx
      exact ⟨a, z, hy, by rw [tag_solve]⟩
    | _ => exact absurd hx (by simp [solve, group?])
  · intro h
    obtain ⟨a, z, hz, hx⟩ := h
    exact ⟨_, hz, by simp [solve, group?, tag_solve, hx]⟩

end Expr

namespace Analysis

variable {t : Tree} {e : Expr NodeId} {lazy : Bool} {p : Position} {n : Nat} {isStart : Bool}

/-- The position of a leaf is a first position of a part of the expression if the leaf may begin the
part, and a last position if it may end it. -/
theorem mem_ends_iff {size : Nat} (hnd : (e.leaves.map Prod.fst).Nodup)
    (hb : ∀ y ∈ e.leaves, y.1 < size) {x : NodeId × Leaf} (hx : e.At p x) {z : Expr NodeId}
    (hz : z.leaves ⊆ e.leaves) :
    (p ∈ if isStart then (z.ends (Positions.ofExpr size e).nodePosition?).first
      else (z.ends (Positions.ofExpr size e).nodePosition?).last) ↔
      if isStart then z.First x else z.Last x := by
  have hpos := (Positions.nodePosition?_iff hnd hb hx.mem).mpr hx
  have hsame : ∀ {y}, y ∈ z.leaves → (Positions.ofExpr size e).nodePosition? y.1 = some p → y = x :=
    fun hy h => ((Positions.nodePosition?_iff hnd hb (hz hy)).mp h).unique hx
  cases isStart with
  | true =>
    rw [if_pos rfl, if_pos rfl, Expr.mem_first_ends]
    refine ⟨fun h => ?_, fun h => ⟨x, h, hpos⟩⟩
    obtain ⟨y, hy, hp⟩ := h
    rwa [← hsame (Expr.mem_leaves_of_first hy) hp]
  | false =>
    rw [if_neg Bool.false_ne_true, if_neg Bool.false_ne_true, Expr.mem_last_ends]
    refine ⟨fun h => ?_, fun h => ⟨x, h, hpos⟩⟩
    obtain ⟨y, hy, hp⟩ := h
    rwa [← hsame (Expr.mem_leaves_of_last hy) hp]

/-- A position marks the start of a group if its leaf may begin what a group with this number holds,
and the end if it may end it. -/
theorem marks_ofPosition_iff (hnd : (e.leaves.map Prod.fst).Nodup)
    (hb : ∀ y ∈ e.leaves, y.1 < t.size) {x : NodeId × Leaf} (hx : e.At p x) :
    Marks ((ofExpr t e lazy true).events.ofPosition p) n isStart ↔
      ∃ a g z, .capture a g z ∈ e.subexprs ∧ g.number = n ∧
        if isStart then z.First x else z.Last x := by
  obtain ⟨hpos, hget⟩ := hx
  have hsize : p ≤ (Positions.ofExpr t.size e).size := by
    rw [Positions.size_ofExpr]
    exact Nat.le_of_pred_lt (List.getElem?_eq_some_iff.mp hget).1
  have hleaves : ∀ {a g z}, Expr.capture a g z ∈ e.subexprs → z.leaves ⊆ e.leaves := by
    intro a g z hz
    rw [← Expr.leaves_capture a g z]
    exact Expr.leaves_subset_of_mem_subexprs hz
  show Marks ((Events.ofExpr _ _).ofPosition p) n isStart ↔ _
  rw [Events.marks_ofPosition_iff hpos hsize]
  simp only [Expr.mem_captures_solve]
  constructor
  · intro h
    obtain ⟨⟨g, ends⟩, ⟨a, z, hz, rfl⟩, hn, hp⟩ := h
    exact ⟨a, g, z, hz, hn, (mem_ends_iff hnd hb ⟨hpos, hget⟩ (hleaves hz)).mp hp⟩
  · intro h
    obtain ⟨a, g, z, hz, hn, hp⟩ := h
    refine ⟨(g, _), ⟨a, z, hz, rfl⟩, hn, ?_⟩
    exact (mem_ends_iff hnd hb ⟨hpos, hget⟩ (hleaves hz)).mpr hp

end Analysis

end PositionAutomata
