import Mathlib.Data.List.Forall2
import PositionAutomata.Proofs.Analysis.Tables
import PositionAutomata.Proofs.Construction.Worklist
import PositionAutomata.Proofs.Expr.Neighbours

/-
  Words of positions.

  Where every leaf has a node of its own, a word of leaves is a word of
  positions, each leaf being its own letter (`Expr.SpellsAt`). The tables of a
  tree say exactly how these words begin, end and go on: which parts of the tree
  spell the empty word, which positions begin and end words of a part, and which
  two stand next to each other in a word of the whole.
-/

namespace PositionAutomata

theorem forall₂_append_left_iff {α β : Type} {r : α → β → Prop} {as bs : List α} {u : List β} :
    List.Forall₂ r (as ++ bs) u ↔
      ∃ v w, u = v ++ w ∧ List.Forall₂ r as v ∧ List.Forall₂ r bs w := by
  constructor
  · intro h
    induction as generalizing u with
    | nil => exact ⟨[], u, rfl, .nil, h⟩
    | cons a as ih =>
      obtain ⟨x, u, hx, hu, rfl⟩ := List.forall₂_cons_left_iff.mp h
      obtain ⟨v, w, rfl, hv, hw⟩ := ih hu
      exact ⟨x :: v, w, rfl, .cons hx hv, hw⟩
  · intro h
    obtain ⟨v, w, rfl, hv, hw⟩ := h
    exact List.rel_append hv hw

namespace Expr

variable {α : Type} {e x : Expr α} {p q : Position}

/-- A part of an expression spells these positions in turn: they are those of the leaves of one of
its words. -/
def SpellsAt (e x : Expr α) (ps : List Position) : Prop :=
  ∃ u, x.Spells u ∧ List.Forall₂ e.At ps u

/-- Whether a part spells the empty word of positions, and the positions that begin and end its
words. -/
structure Delimits (e x : Expr α) (ends : Ends) : Prop where
  nullable : ends.nullable = true ↔ e.SpellsAt x []
  first : ∀ p, p ∈ ends.first ↔ ∃ ps, e.SpellsAt x (p :: ps)
  last : ∀ p, p ∈ ends.last ↔ ∃ ps, e.SpellsAt x (ps ++ [p])

/-! ## Leaves and their positions -/

theorem leaf_mem_subexprs {y : α × Leaf} (hy : y ∈ e.leaves) : leaf y.1 y.2 ∈ e.subexprs := by
  obtain ⟨z, hz, h⟩ := List.mem_filterMap.mp hy
  cases z with
  | leaf a l => cases h; exact hz
  | concat a l r => exact absurd h (by simp [leaf?])
  | alternation a l r => exact absurd h (by simp [leaf?])
  | repetition a q e => exact absurd h (by simp [leaf?])
  | capture a g e => exact absurd h (by simp [leaf?])

/-- The tags of the leaves are some of the tags, in their order. -/
theorem map_fst_leaves_sublist (e : Expr α) : (e.leaves.map Prod.fst).Sublist e.tags := by
  have hleaf : ∀ z : Expr α, z.leaf?.map Prod.fst = z.leaf?.bind fun _ => some z.tag := by
    intro z
    cases z <;> rfl
  rw [leaves, tags]
  generalize e.subexprs = zs
  induction zs with
  | nil => exact .slnil
  | cons z zs ih =>
    have hz := hleaf z
    cases hy : z.leaf? with
    | none =>
      rw [List.filterMap_cons_none hy]
      exact ih.cons _
    | some y =>
      rw [hy] at hz
      rw [List.filterMap_cons_some hy, List.map_cons, List.map_cons, Option.some.inj hz]
      exact ih.cons_cons _

theorem exists_forall₂_at {u : List (α × Leaf)} (h : ∀ y ∈ u, y ∈ e.leaves) :
    ∃ ps, List.Forall₂ e.At ps u := by
  induction u with
  | nil => exact ⟨[], .nil⟩
  | cons y u ih =>
    obtain ⟨hy, hu⟩ := List.forall_mem_cons.mp h
    obtain ⟨p, hp⟩ := exists_at hy
    obtain ⟨ps, hps⟩ := ih hu
    exact ⟨p :: ps, .cons hp hps⟩

theorem spells_mem_leaves (hx : x ∈ e.subexprs) {u : List (α × Leaf)} (h : x.Spells u) :
    ∀ y ∈ u, y ∈ e.leaves := fun _ hy =>
  leaves_subset_of_mem_subexprs hx (mem_leaves_of_spells h hy)

/-! ## Words of positions -/

theorem spellsAt_nil_iff : e.SpellsAt x [] ↔ x.Spells [] := by
  constructor
  · intro h
    obtain ⟨u, hu, hps⟩ := h
    rwa [List.forall₂_nil_left_iff.mp hps] at hu
  · exact fun h => ⟨[], h, .nil⟩

theorem exists_spellsAt_cons_iff (hx : x ∈ e.subexprs) :
    (∃ ps, e.SpellsAt x (p :: ps)) ↔ ∃ y, (∃ v, x.Spells (y :: v)) ∧ e.At p y := by
  constructor
  · intro h
    obtain ⟨ps, u, hu, hps⟩ := h
    obtain ⟨y, v, hy, _, rfl⟩ := List.forall₂_cons_left_iff.mp hps
    exact ⟨y, ⟨v, hu⟩, hy⟩
  · intro h
    obtain ⟨y, ⟨v, hu⟩, hy⟩ := h
    have hmem := spells_mem_leaves hx hu
    obtain ⟨ps, hps⟩ := exists_forall₂_at fun z hz => hmem z (List.mem_cons_of_mem y hz)
    exact ⟨ps, y :: v, hu, .cons hy hps⟩

theorem exists_spellsAt_concat_iff (hx : x ∈ e.subexprs) :
    (∃ ps, e.SpellsAt x (ps ++ [p])) ↔ ∃ y, (∃ v, x.Spells (v ++ [y])) ∧ e.At p y := by
  constructor
  · intro h
    obtain ⟨ps, u, hu, hps⟩ := h
    obtain ⟨v, w, rfl, _, hw⟩ := forall₂_append_left_iff.mp hps
    obtain ⟨y, w, hy, hnil, rfl⟩ := List.forall₂_cons_left_iff.mp hw
    rw [List.forall₂_nil_left_iff.mp hnil] at hu
    exact ⟨y, ⟨v, hu⟩, hy⟩
  · intro h
    obtain ⟨y, ⟨v, hu⟩, hy⟩ := h
    have hmem := spells_mem_leaves hx hu
    obtain ⟨ps, hps⟩ := exists_forall₂_at fun z hz => hmem z (List.mem_append_left [y] hz)
    exact ⟨ps, v ++ [y], hu, forall₂_append_left_iff.mpr ⟨v, [y], rfl, hps, .cons hy .nil⟩⟩

theorem exists_spellsAt_pair_iff :
    (∃ ps qs, e.SpellsAt e (ps ++ p :: q :: qs)) ↔
      ∃ y z, (∃ u v, e.Spells (u ++ y :: z :: v)) ∧ e.At p y ∧ e.At q z := by
  constructor
  · intro h
    obtain ⟨ps, qs, u, hu, hps⟩ := h
    obtain ⟨v, w, rfl, _, hw⟩ := forall₂_append_left_iff.mp hps
    obtain ⟨y, w, hy, hw', rfl⟩ := List.forall₂_cons_left_iff.mp hw
    obtain ⟨z, w, hz, _, rfl⟩ := List.forall₂_cons_left_iff.mp hw'
    exact ⟨y, z, ⟨v, w, hu⟩, hy, hz⟩
  · intro h
    obtain ⟨y, z, ⟨v, w, hu⟩, hy, hz⟩ := h
    have hmem := spells_mem_leaves e.mem_subexprs_self hu
    obtain ⟨ps, hps⟩ := exists_forall₂_at fun x hx => hmem x (List.mem_append_left _ hx)
    obtain ⟨qs, hqs⟩ := exists_forall₂_at fun x (hx : x ∈ w) => hmem x (by simp [hx])
    exact ⟨ps, qs, _, hu, forall₂_append_left_iff.mpr ⟨v, _, rfl, hps, .cons hy (.cons hz hqs)⟩⟩

theorem Valid.of_mem_subexprs (hv : e.Valid) (hx : x ∈ e.subexprs) : x.Valid := by
  induction e with
  | leaf a l => rwa [List.mem_singleton.mp hx]
  | concat a l r ihl ihr =>
    rw [subexprs_concat, List.mem_cons, List.mem_append] at hx
    rcases hx with rfl | hx | hx
    · exact hv
    · exact ihl hv.1 hx
    · exact ihr hv.2 hx
  | alternation a l r ihl ihr =>
    rw [subexprs_alternation, List.mem_cons, List.mem_append] at hx
    rcases hx with rfl | hx | hx
    · exact hv
    · exact ihl hv.1 hx
    · exact ihr hv.2 hx
  | repetition a q e ih =>
    rw [subexprs_repetition, List.mem_cons] at hx
    rcases hx with rfl | hx
    · exact hv
    · exact ih hv.2 hx
  | capture a g e ih =>
    rw [subexprs_capture, List.mem_cons] at hx
    rcases hx with rfl | hx
    · exact hv
    · exact ih hv hx

end Expr

namespace Analysis

variable {t : Tree} {e x : Expr NodeId} {root : NodeId} {lazy captures : Bool} {p q : Position}

theorem lt_size_of_mem_leaves (h : t.expr root = .ok e) : ∀ y ∈ e.leaves, y.1 < t.size :=
  fun _ hy => Tree.lt_size_of_expr (Tree.expr_of_mem_subexprs h _ (Expr.leaf_mem_subexprs hy))

theorem position_iff (h : t.expr root = .ok e) (hs : e.tags.Nodup) {y : NodeId × Leaf}
    (hy : y ∈ e.leaves) :
    (Positions.ofExpr t.size e).nodePosition? y.1 = some p ↔ e.At p y :=
  Positions.nodePosition?_iff ((Expr.map_fst_leaves_sublist e).nodup hs) (lt_size_of_mem_leaves h)
    hy

/-- Where no node is shared, the ends of every part say how its words of positions begin and end. -/
theorem delimits_ends (h : t.expr root = .ok e) (hs : e.tags.Nodup) (hv : e.Valid)
    (hx : x ∈ e.subexprs) :
    e.Delimits x (x.ends (Positions.ofExpr t.size e).nodePosition?) := by
  have hvx := hv.of_mem_subexprs hx
  have hsub := Expr.leaves_subset_of_mem_subexprs hx
  refine ⟨?_, fun p => ?_, fun p => ?_⟩
  · rw [Expr.nullable_ends, Expr.spellsAt_nil_iff, Expr.spells_nil_iff hvx]
  · rw [Expr.mem_first_ends, Expr.exists_spellsAt_cons_iff hx]
    refine exists_congr fun y => ?_
    rw [← Expr.first_iff_spells hvx]
    exact and_congr_right fun hy => position_iff h hs (hsub (Expr.mem_leaves_of_first hy))
  · rw [Expr.mem_last_ends, Expr.exists_spellsAt_concat_iff hx]
    refine exists_congr fun y => ?_
    rw [← Expr.last_iff_spells hvx]
    exact and_congr_right fun hy => position_iff h hs (hsub (Expr.mem_leaves_of_last hy))

/-- Where no node is shared, the positions that follow one are those that stand right after it in
a word. -/
theorem mem_after_iff_spellsAt (h : t.expr root = .ok e) (hs : e.tags.Nodup) (hv : e.Valid) :
    q ∈ (ofExpr t e lazy captures).follow.after p ↔
      ∃ ps qs, e.SpellsAt e (ps ++ p :: q :: qs) := by
  rw [mem_after_iff ((Expr.map_fst_leaves_sublist e).nodup hs) (lt_size_of_mem_leaves h),
    Expr.exists_spellsAt_pair_iff]
  simp only [Expr.follows_iff_spells hv]

/-- In the tables of a tree without shared nodes, in which repetitions have a minimum up to their
maximum, the ends of every node say whether it spells the empty word of positions and which
positions begin and end its words, and the positions that follow one are exactly those that stand
right after it in a word of the root. -/
theorem ofTree_delimits_words {t : Tree} {e : Expr NodeId} (hroot : t.rootExpr = .ok e)
    (hshared : e.tags.Nodup) (hvalid : e.Valid) :
    ∃ a, Analysis.ofTree t = .ok a ∧
      (∀ n ∈ e.tags, ∃ x ends, t.expr n = .ok x ∧ a.nodeEnds n = .ok ends ∧ e.Delimits x ends) ∧
      ∀ p q, q ∈ a.follow.after p ↔ ∃ ps qs, e.SpellsAt e (ps ++ p :: q :: qs) := by
  obtain ⟨root, h⟩ := exists_root_of_rootExpr hroot
  refine ⟨ofExpr t e true true, by rw [ofTree, hroot]; rfl, fun n hn => ?_, fun p q => ?_⟩
  · obtain ⟨x, hx, rfl⟩ := List.mem_map.mp hn
    exact ⟨x, _, Tree.expr_of_mem_subexprs h x hx, nodeEnds_of_mem h hx,
      delimits_ends h hshared hvalid hx⟩
  · exact mem_after_iff_spellsAt h hshared hvalid

/-- A capture of `a` or nothing, two or three times, and then any number of letters `b`. -/
def capturedThenLetters : Tree where
  nodes := #[.leaf (.codepoint 0x61), .leaf .empty, .alternation 0 1, .capture 2 ⟨1, none⟩,
    .repetition 3 ⟨2, 3, false⟩, .leaf (.codepoint 0x62), .repetition 5 .star, .concat 4 6]
  root := some 7

/-- What the root of `capturedThenLetters` unfolds to. -/
def capturedThenLettersExpr : Expr NodeId :=
  .concat 7
    (.repetition 4 ⟨2, 3, false⟩ (.capture 3 ⟨1, none⟩
      (.alternation 2 (.leaf 0 (.codepoint 0x61)) (.leaf 1 .empty))))
    (.repetition 6 .star (.leaf 5 (.codepoint 0x62)))

theorem ofTree_delimits_capturedThenLetters :
    capturedThenLetters.rootExpr = .ok capturedThenLettersExpr ∧
      capturedThenLettersExpr.tags.Nodup ∧ capturedThenLettersExpr.Valid ∧
      ∃ a, Analysis.ofTree capturedThenLetters = .ok a ∧
        (∀ n ∈ capturedThenLettersExpr.tags, ∃ x ends, capturedThenLetters.expr n = .ok x ∧
          a.nodeEnds n = .ok ends ∧ capturedThenLettersExpr.Delimits x ends) ∧
        ∀ p q, q ∈ a.follow.after p ↔ ∃ ps qs,
          capturedThenLettersExpr.SpellsAt capturedThenLettersExpr (ps ++ p :: q :: qs) := by
  have hroot : capturedThenLetters.rootExpr = .ok capturedThenLettersExpr := by rfl
  have hshared : capturedThenLettersExpr.tags.Nodup := by decide
  have hvalid : capturedThenLettersExpr.Valid := by decide
  exact ⟨hroot, hshared, hvalid, ofTree_delimits_words hroot hshared hvalid⟩

end Analysis

end PositionAutomata
