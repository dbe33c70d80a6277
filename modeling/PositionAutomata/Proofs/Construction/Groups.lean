import PositionAutomata.Proofs.Analysis.Events
import PositionAutomata.Proofs.Construction.States
import PositionAutomata.Proofs.Recognition

/-
  The groups that the events of a built automaton name.

  What holds of all capture groups of an expression (`Expr.AllGroups`) holds of
  those of the copy that is analysed, however often a group is repeated in it
  (`Config.Augments.allGroups`). An event of a set of positions is the start or the
  end of a group of the analysed expression (`Events.exists_of_mem_ofSet`). So every
  event of a built automaton has the number and the name of a group of the tree
  (`Automaton.group_of_mem_events`).
-/

namespace PositionAutomata

/-- The group of an event. -/
def CaptureEvent.toGroup (e : CaptureEvent) : Group := ⟨e.group, e.name⟩

namespace Expr

variable {α β : Type} {p : Group → Prop}

/-- All capture groups satisfy a property. -/
def AllGroups (p : Group → Prop) : Expr α → Prop
  | leaf _ _ => True
  | concat _ l r => l.AllGroups p ∧ r.AllGroups p
  | alternation _ l r => l.AllGroups p ∧ r.AllGroups p
  | repetition _ _ e => e.AllGroups p
  | capture _ g e => p g ∧ e.AllGroups p

theorem allGroups_map {f : α → β} {e : Expr α} : (e.map f).AllGroups p ↔ e.AllGroups p := by
  induction e with
  | leaf a l => exact Iff.rfl
  | concat a l r ihl ihr => exact and_congr ihl ihr
  | alternation a l r ihl ihr => exact and_congr ihl ihr
  | repetition a q e ih => exact ih
  | capture a g e ih => exact and_congr_right fun _ => ih

theorem allGroups_iff {e : Expr α} :
    e.AllGroups p ↔ ∀ a g x, capture a g x ∈ e.subexprs → p g := by
  induction e with
  | leaf a l => simp [AllGroups]
  | concat a l r ihl ihr =>
    refine (and_congr ihl ihr).trans ?_
    simp only [subexprs_concat, List.mem_cons, List.mem_append, reduceCtorEq, false_or, or_imp,
      forall_and]
  | alternation a l r ihl ihr =>
    refine (and_congr ihl ihr).trans ?_
    simp only [subexprs_alternation, List.mem_cons, List.mem_append, reduceCtorEq, false_or, or_imp,
      forall_and]
  | repetition a q e ih =>
    refine Iff.trans ih ?_
    simp only [subexprs_repetition, List.mem_cons, reduceCtorEq, false_or]
  | capture a g e ih =>
    refine (and_congr_right fun _ => ih).trans ?_
    rw [subexprs_capture]
    constructor
    · rintro ⟨hg, hp⟩ a' g' x hx
      rcases List.mem_cons.mp hx with hx | hx
      · cases hx
        exact hg
      · exact hp a' g' x hx
    · exact fun h => ⟨h a g e List.mem_cons_self, fun a' g' x hx =>
        h a' g' x (List.mem_cons_of_mem _ hx)⟩

theorem AllGroups.unrolled {e : Expr α} (h : e.AllGroups p) : e.unrolled.AllGroups p := by
  induction e with
  | leaf a l => trivial
  | concat a l r ihl ihr => exact ⟨ihl h.1, ihr h.2⟩
  | alternation a l r ihl ihr => exact ⟨ihl h.1, ihr h.2⟩
  | repetition a q e ih =>
    rw [unrolled_repetition]
    split
    · exact unrolling_induction trivial (fun _ _ he hf => ⟨he, hf⟩) (fun _ _ he hf => ⟨he, hf⟩)
        (ih h) (fun _ => ih h) (ih h)
    · exact ih h
  | capture a g e ih => exact ⟨h.1, ih h.2⟩

theorem AllGroups.of_mem_captures {pos : NodeId → Option Position} {e : Expr NodeId}
    (h : e.AllGroups p) {x : Group × Ends} (hx : x ∈ (e.solve pos).captures) : p x.1 := by
  obtain ⟨a, z, hz, _⟩ := mem_captures_solve.mp hx
  exact allGroups_iff.mp h a x.1 z hz

end Expr

namespace Config

variable {c : Config} {u : Tree} {e f : Expr NodeId} {p : Group → Prop}

theorem allGroups_augmented (h : e.AllGroups p) : (c.augmented e).AllGroups p := by
  refine augmented_induction (fun x hx _ => ⟨?_, trivial⟩) fun _ _ hl hr => ⟨hl, hr⟩
  have hrule : x.AllGroups p := (forall_mem_rules fun _ _ _ => Iff.rfl).mpr h x hx
  rw [copied]
  split
  · exact hrule.unrolled
  · exact Expr.allGroups_map.mpr hrule

theorem Augments.allGroups (haug : c.Augments e u f) (h : e.AllGroups p) : f.AllGroups p := by
  have hshape := allGroups_augmented (c := c) h
  rw [← haug.shape] at hshape
  exact Expr.allGroups_map.mp hshape

end Config

/-! ## Events -/

namespace CaptureEvent

variable {es fs : List CaptureEvent} {e : CaptureEvent}

theorem mem_of_mem_foldl_addNew (h : e ∈ fs.foldl addNew es) : e ∈ es ∨ e ∈ fs := by
  induction fs generalizing es with
  | nil => exact .inl h
  | cons f fs ih =>
    rcases ih h with h | h
    · rw [addNew] at h
      split at h
      · exact .inl h
      · rw [List.mem_append, List.mem_singleton] at h
        exact h.imp_right fun h => List.mem_cons.mpr (.inl h)
    · exact .inr (List.mem_cons_of_mem _ h)

theorem mem_of_mem_distinct (h : e ∈ distinct es) : e ∈ es :=
  (mem_of_mem_foldl_addNew h).resolve_left List.not_mem_nil

end CaptureEvent

namespace Events

variable {α : Type} {ps : Positions} {x : Expr (α × Ends)} {e : CaptureEvent}

theorem exists_of_mem_ofPosition {p : Position} (h : e ∈ (ofExpr ps x).ofPosition p) :
    ∃ y ∈ x.captures, y.1 = e.toGroup := by
  rw [ofPosition, ofExpr, Positions.valueAt?_gather] at h
  split at h
  · rw [Option.getD_some, ← List.foldl_map (g := CaptureEvent.addNew) (f := Prod.snd)] at h
    have hitem := (CaptureEvent.mem_of_mem_foldl_addNew h).resolve_left List.not_mem_nil
    obtain ⟨⟨q, _⟩, hq, rfl⟩ := List.mem_map.mp hitem
    obtain ⟨y, hy, hev⟩ := List.mem_flatMap.mp (List.mem_filter.mp hq).1
    refine ⟨y, hy, ?_⟩
    simp only [ofGroup, List.mem_append, List.mem_map, Prod.mk.injEq] at hev
    obtain ⟨_, _, _, rfl⟩ | ⟨_, _, _, rfl⟩ := hev <;> rfl
  · exact absurd h List.not_mem_nil

/-- An event of a set of positions belongs to a group of the expression. -/
theorem exists_of_mem_ofSet {s : SortedSet} (h : e ∈ (ofExpr ps x).ofSet s) :
    ∃ y ∈ x.captures, y.1 = e.toGroup := by
  rw [ofSet, List.mem_mergeSort] at h
  obtain ⟨p, _, hp⟩ := List.mem_flatMap.mp (CaptureEvent.mem_of_mem_distinct h)
  exact exists_of_mem_ofPosition hp

theorem not_mem_ofSet_none {s : SortedSet} : e ∉ (none ps).ofSet s := by
  intro h
  rw [ofSet, List.mem_mergeSort] at h
  obtain ⟨p, _, hp⟩ := List.mem_flatMap.mp (CaptureEvent.mem_of_mem_distinct h)
  have hnone : (none ps).ofPosition p = [] := by
    simp only [ofPosition, none, Positions.valueAt?]
    grind
  exact absurd (hnone ▸ hp) List.not_mem_nil

end Events

/-! ## Built automata -/

namespace Automaton

variable {t : Tree} {c : Config} {d : Automaton} {q : StateId} {s : State} {e : CaptureEvent}

/-- The events of a built automaton are those of groups of its tree. -/
theorem group_of_mem_events {x : Expr NodeId} {p : Group → Prop} (hroot : t.rootExpr = .ok x)
    (hp : x.AllGroups p) (hd : ofTree t c = .ok d) (hs : d.get? q = some s) (he : e ∈ s.events) :
    p e.toGroup := by
  obtain ⟨a, ha, rfl⟩ := exists_analyze_of_ofTree hd
  obtain ⟨u, f, haug, rfl⟩ := Config.augments_of_rootExpr hroot ha
  obtain ⟨_, v, _, hv, hw⟩ := Analysis.exists_within_synthesized hs
  obtain ⟨k, hk⟩ := Analysis.exists_key hv
  rw [Analysis.get?_synthesized (haug.analysis_bounded _ _) hk] at hv
  obtain rfl := Option.some.inj hv
  have hevents : s.events = (Analysis.ofExpr u f c.lazy c.captures).events.ofSet k.positions :=
    hw.events
  rw [hevents, Analysis.ofExpr] at he
  dsimp only at he
  split at he
  · obtain ⟨y, hy, hgroup⟩ := Events.exists_of_mem_ofSet he
    exact hgroup ▸ (haug.allGroups hp).of_mem_captures hy
  · exact absurd he Events.not_mem_ofSet_none

end Automaton

end PositionAutomata
