import PositionAutomata.Proofs.Expr.Languages

/-
  Where an expression stands as at its beginning.

  After the beginning of a word an expression may go on with a leaf that it could
  have begun with (`BeginsAgain`). Where no leaf occurs twice this follows the
  shape of the expression: in a concatenation it happens in the left part, or in
  the right one if the left one may be empty (`beginsAgain_concat`), and in a
  repetition after some iterations (`beginsAgain_repetition`). `Expr.restarts`
  says so without tags, as a language of texts (`restarts_eq_written`).
-/

namespace PositionAutomata

open Computability

variable {α β : Type}

/-! ## Words in parts -/

/-- A leaf of two joined words stands in the first or in the second. -/
theorem middle_eq_append_cases {γ : Type} {x : γ} {u v a b : List γ} (h : u ++ x :: v = a ++ b) :
    (∃ w, a = u ++ x :: w) ∨ ∃ w, u = a ++ w ∧ b = w ++ x :: v := by
  rcases List.append_eq_append_iff.mp h with ⟨w, rfl, hb⟩ | ⟨w, rfl, rfl⟩
  · rcases cons_eq_append_cases hb with ⟨rfl, rfl⟩ | ⟨w, rfl⟩
    · exact .inr ⟨[], by simp, rfl⟩
    · exact .inl ⟨w, rfl⟩
  · exact .inr ⟨w, rfl, rfl⟩

/-- A leaf of repeated words stands in one of them, after some whole ones. -/
theorem Repeated.middle {γ : Type} {p : List γ → Prop} {x : γ} {u v : List γ} {n : Nat}
    (h : Repeated p n (u ++ x :: v)) :
    ∃ m < n, ∃ a b, u = a ++ b ∧ Repeated p m a ∧ ∃ w, p (b ++ x :: w) := by
  induction n generalizing u with
  | zero => exact absurd h (by simp [Repeated])
  | succ n ih =>
    obtain ⟨a, b, huv, ha, hb⟩ := h
    rcases middle_eq_append_cases huv with ⟨w, rfl⟩ | ⟨w, rfl, rfl⟩
    · exact ⟨0, Nat.succ_pos n, [], u, rfl, rfl, w, ha⟩
    · obtain ⟨m, hm, c, d, rfl, hc, hd⟩ := ih hb
      exact ⟨m + 1, Nat.succ_lt_succ hm, a ++ c, d, (List.append_assoc ..).symm,
        ⟨a, c, rfl, ha, hc⟩, hd⟩

namespace Expr

variable {a : α} {e l r : Expr α} {x : α × Leaf} {u v : List (α × Leaf)} {q : Quantifier}

/-- After a word the expression may go on with a leaf that may begin a word. -/
def BeginsAgain (e : Expr α) (u : List (α × Leaf)) : Prop :=
  ∃ x, e.First x ∧ ∃ v, e.Spells (u ++ x :: v)

/-- A word of a concatenation with a leaf of the left part is a word of this part up to there. -/
theorem spells_concat_left (hlin : (l.leaves ++ r.leaves).Nodup) (hr : r.Unrolled)
    (hx : x ∈ l.leaves) :
    (∃ v, (concat a l r).Spells (u ++ x :: v)) ↔ ∃ v, l.Spells (u ++ x :: v) := by
  constructor
  · intro h
    obtain ⟨v, b, c, huv, hb, hc⟩ := h
    rcases middle_eq_append_cases huv with ⟨w, rfl⟩ | ⟨w, rfl, rfl⟩
    · exact ⟨w, hb⟩
    · exact (Linear.disjoint hlin hx (mem_leaves_of_spells hc (by simp))).elim
  · intro h
    obtain ⟨v, hv⟩ := h
    obtain ⟨w, hw⟩ := exists_spells hr.valid
    exact ⟨v ++ w, u ++ x :: v, w, by simp, hv, hw⟩

/-- Before a leaf of the left part of a concatenation stands a leaf of this part. -/
theorem follows_concat_left {y : α × Leaf} (hlin : (l.leaves ++ r.leaves).Nodup) (hy : y ∈ l.leaves)
    (h : (concat a l r).Follows x y) : l.Follows x y := by
  rcases h with h | h | ⟨_, h⟩
  · exact h
  · exact (Linear.disjoint hlin hy (mem_leaves_of_follows h).2).elim
  · exact (Linear.disjoint hlin hy (mem_leaves_of_first h)).elim

/-- A word of a concatenation with a leaf of the right part has a word of the left one before it. -/
theorem spells_concat_right (hlin : (l.leaves ++ r.leaves).Nodup) (hx : x ∈ r.leaves) :
    (∃ v, (concat a l r).Spells (u ++ x :: v)) ↔
      ∃ b c, u = b ++ c ∧ l.Spells b ∧ ∃ v, r.Spells (c ++ x :: v) := by
  constructor
  · intro h
    obtain ⟨v, b, c, huv, hb, hc⟩ := h
    rcases middle_eq_append_cases huv with ⟨w, rfl⟩ | ⟨w, rfl, rfl⟩
    · exact (Linear.disjoint hlin (mem_leaves_of_spells hb (by simp)) hx).elim
    · exact ⟨b, w, rfl, hb, v, hc⟩
  · intro h
    obtain ⟨b, c, rfl, hb, v, hc⟩ := h
    exact ⟨v, b, c ++ x :: v, by simp, hb, hc⟩

theorem spells_repetition_middle (he : e.Unrolled) :
    (∃ v, (repetition a q e).Spells (u ++ x :: v)) ↔
      ∃ n m, q.Allows n ∧ m < n ∧ ∃ b c, u = b ++ c ∧ Repeated e.Spells m b ∧
        ∃ v, e.Spells (c ++ x :: v) := by
  constructor
  · intro h
    obtain ⟨v, n, hn, h⟩ := h
    obtain ⟨m, hm, b, c, hu, hb, hc⟩ := h.middle
    exact ⟨n, m, hn, hm, b, c, hu, hb, hc⟩
  · intro h
    obtain ⟨n, m, hn, hm, b, c, rfl, hb, v, hc⟩ := h
    obtain ⟨w, hw⟩ := exists_spells he.valid
    obtain ⟨rest, hrest⟩ := Repeated.exists hw (n - (m + 1))
    -- The iterations that are still required come after the one with the leaf.
    have hlast : Repeated e.Spells (n - (m + 1) + 1) (c ++ x :: v ++ rest) :=
      ⟨c ++ x :: v, rest, rfl, hc, hrest⟩
    refine ⟨v ++ rest, n, hn, ?_⟩
    rw [show n = m + (n - (m + 1) + 1) by omega]
    simpa using hb.append hlast

/-! ## Words that begin again -/

theorem beginsAgain_leaf {k : Leaf} : (leaf a k).BeginsAgain u ↔ k ≠ .empty ∧ u = [] := by
  constructor
  · intro h
    obtain ⟨x, ⟨hk, rfl⟩, v, h⟩ := h
    simp only [Spells, if_neg hk] at h
    have hlen := congrArg List.length h
    simp only [List.length_append, List.length_cons, List.length_nil] at hlen
    exact ⟨hk, List.length_eq_zero_iff.mp (by omega)⟩
  · intro h
    obtain ⟨hk, rfl⟩ := h
    exact ⟨_, ⟨hk, rfl⟩, [], by simp [Spells, hk]⟩

theorem beginsAgain_concat (hlin : (l.leaves ++ r.leaves).Nodup) (hr : r.Unrolled) :
    (concat a l r).BeginsAgain u ↔ l.BeginsAgain u ∨
      (l.Nullable ∧ ∃ b c, u = b ++ c ∧ l.Spells b ∧ r.BeginsAgain c) := by
  constructor
  · intro h
    obtain ⟨x, hx | ⟨hn, hx⟩, h⟩ := h
    · exact .inl ⟨x, hx, (spells_concat_left hlin hr (mem_leaves_of_first hx)).mp h⟩
    · obtain ⟨b, c, hu, hb, hc⟩ := (spells_concat_right hlin (mem_leaves_of_first hx)).mp h
      exact .inr ⟨hn, b, c, hu, hb, x, hx, hc⟩
  · intro h
    rcases h with ⟨x, hx, h⟩ | ⟨hn, b, c, hu, hb, x, hx, hc⟩
    · exact ⟨x, .inl hx, (spells_concat_left hlin hr (mem_leaves_of_first hx)).mpr h⟩
    · refine ⟨x, .inr ⟨hn, hx⟩, ?_⟩
      exact (spells_concat_right hlin (mem_leaves_of_first hx)).mpr ⟨b, c, hu, hb, hc⟩

theorem beginsAgain_alternation (hlin : (l.leaves ++ r.leaves).Nodup) :
    (alternation a l r).BeginsAgain u ↔ l.BeginsAgain u ∨ r.BeginsAgain u := by
  -- A word with a leaf of one side is a word of this side.
  constructor
  · intro h
    obtain ⟨x, hx | hx, v, h⟩ := h
    · refine .inl ⟨x, hx, v, h.resolve_right fun h => ?_⟩
      exact Linear.disjoint hlin (mem_leaves_of_first hx) (mem_leaves_of_spells h (by simp))
    · refine .inr ⟨x, hx, v, h.resolve_left fun h => ?_⟩
      exact Linear.disjoint hlin (mem_leaves_of_spells h (by simp)) (mem_leaves_of_first hx)
  · intro h
    rcases h with ⟨x, hx, v, h⟩ | ⟨x, hx, v, h⟩
    · exact ⟨x, .inl hx, v, .inl h⟩
    · exact ⟨x, .inr hx, v, .inr h⟩

theorem beginsAgain_repetition (he : e.Unrolled) :
    (repetition a q e).BeginsAgain u ↔ ∃ n m, q.Allows n ∧ m < n ∧
      ∃ b c, u = b ++ c ∧ Repeated e.Spells m b ∧ e.BeginsAgain c := by
  constructor
  · intro h
    obtain ⟨x, hx, h⟩ := h
    obtain ⟨n, m, hn, hm, b, c, hu, hb, hc⟩ := (spells_repetition_middle he).mp h
    exact ⟨n, m, hn, hm, b, c, hu, hb, x, hx, hc⟩
  · intro h
    obtain ⟨n, m, hn, hm, b, c, hu, hb, x, hx, hc⟩ := h
    exact ⟨x, hx, (spells_repetition_middle he).mpr ⟨n, m, hn, hm, b, c, hu, hb, hc⟩⟩

/-! ## Texts -/

/-- The texts after which the expression may go on with a leaf that it may begin with. -/
def restarts : Expr α → Language Char
  | leaf _ l => {text | l ≠ .empty ∧ text = []}
  | concat _ l r => {text | text ∈ l.restarts ∨ (l.Nullable ∧ text ∈ l.language * r.restarts)}
  | alternation _ l r => l.restarts + r.restarts
  | repetition _ q e => {text | ∃ n m, q.Allows n ∧ m < n ∧ text ∈ e.language ^ m * e.restarts}
  | capture _ _ e => e.restarts

/-- Where no leaf occurs twice, these texts are what the words that begin again write. -/
theorem restarts_eq_written (hu : e.Unrolled) (hlin : e.Linear)
    (he : e.AllLeaves Leaf.IsAnchorFree) : e.restarts = written e.BeginsAgain := by
  induction e with
  | leaf a k =>
    ext text
    show (k ≠ .empty ∧ text = []) ↔ ∃ u, (leaf a k).BeginsAgain u ∧ Writes u text
    simp only [beginsAgain_leaf, and_assoc, exists_and_left, exists_eq_left, writes_nil]
  | concat a l r ihl ihr =>
    rw [Linear, leaves_concat] at hlin
    ext text
    show (text ∈ l.restarts ∨ (l.Nullable ∧ text ∈ l.language * r.restarts)) ↔
      ∃ u, (concat a l r).BeginsAgain u ∧ Writes u text
    rw [ihl hu.1 (Linear.left hlin) he.1, ihr hu.2 (Linear.right hlin) he.2,
      language_eq_written he.1, ← written_joined]
    simp only [beginsAgain_concat hlin hu.2, or_and_right, exists_or, and_assoc, exists_and_left]
    rfl
  | alternation a l r ihl ihr =>
    rw [Linear, leaves_alternation] at hlin
    ext text
    show (text ∈ l.restarts ∨ text ∈ r.restarts) ↔
      ∃ u, (alternation a l r).BeginsAgain u ∧ Writes u text
    rw [ihl hu.1 (Linear.left hlin) he.1, ihr hu.2 (Linear.right hlin) he.2]
    simp only [beginsAgain_alternation hlin, or_and_right, exists_or]
    rfl
  | repetition a q e ih =>
    ext text
    show (∃ n m, q.Allows n ∧ m < n ∧ text ∈ e.language ^ m * e.restarts) ↔
      ∃ u, (repetition a q e).BeginsAgain u ∧ Writes u text
    rw [ih hu.2.2 hlin he, language_eq_written (e := e) he]
    simp only [← written_repeated, ← written_joined, beginsAgain_repetition hu.2.2]
    constructor
    · intro h
      obtain ⟨n, m, hn, hm, u, hu, h⟩ := h
      exact ⟨u, ⟨n, m, hn, hm, hu⟩, h⟩
    · intro h
      obtain ⟨u, ⟨n, m, hn, hm, hu⟩, h⟩ := h
      exact ⟨n, m, hn, hm, u, hu, h⟩
  | capture a g e ih => exact ih hu hlin he

theorem take_mem_restarts_iff (hu : e.Unrolled) (hlin : e.Linear)
    (he : e.AllLeaves Leaf.IsAnchorFree) {text : List Char} {i : Nat} (hi : i ≤ text.length) :
    text.take i ∈ e.restarts ↔ ∃ u, e.BeginsAgain u ∧ Consumes text u 0 i := by
  rw [restarts_eq_written hu hlin he]
  refine exists_congr fun u => and_congr_right fun h => (consumes_zero_iff ?_ hi).symm
  obtain ⟨y, _, v, hv⟩ := h
  exact fun z hz => anchorFree_of_spells he hv z (List.mem_append_left _ hz)

/-- A repetition that allows all numbers of iterations begins again after some of them. -/
theorem restarts_star (hq : ∀ n, q.Allows n) :
    (repetition a q e).restarts = e.language∗ * e.restarts := by
  ext text
  show (∃ n m, q.Allows n ∧ m < n ∧ text ∈ e.language ^ m * e.restarts) ↔ _
  rw [Language.kstar_eq_iSup_pow, Language.iSup_mul, Language.mem_iSup]
  constructor
  · intro h
    obtain ⟨_, m, _, _, h⟩ := h
    exact ⟨m, h⟩
  · intro h
    obtain ⟨m, h⟩ := h
    exact ⟨m + 1, m, hq _, Nat.lt_succ_self m, h⟩

theorem nil_mem_language (hu : e.Unrolled) (h : e.Nullable) : [] ∈ e.language :=
  matches_iff_spells.mpr ⟨[], (spells_nil_iff hu.valid).mpr h, rfl⟩

/-- An expression that may read something may go on with a first leaf before it has read. -/
theorem nil_mem_restarts (hu : e.Unrolled) (h : e.First x) : [] ∈ e.restarts := by
  induction e with
  | leaf a k => exact ⟨h.1, rfl⟩
  | concat a l r ihl ihr =>
    rcases h with h | ⟨hn, h⟩
    · exact .inl (ihl hu.1 h)
    · exact .inr ⟨hn, Language.append_mem_mul (nil_mem_language hu.1 hn) (ihr hu.2 h)⟩
  | alternation a l r ihl ihr => exact h.imp (ihl hu.1) (ihr hu.2)
  | repetition a q e ih =>
    obtain ⟨hv, hc, he⟩ := hu
    have hc : q.isCounted = false := hc.resolve_right fun hc => not_first_of_isEmptyLeaf hc x h
    refine ⟨1, 0, Quantifier.allows_one hv hc, Nat.zero_lt_one, ?_⟩
    rw [pow_zero, one_mul]
    exact ih he h
  | capture a g e ih => exact ih hu h

theorem restarts_map {f : α → β} {e : Expr α} : (e.map f).restarts = e.restarts := by
  have hlang : ∀ e : Expr α, (e.map f).language = e.language := fun e => by
    ext text
    exact matches_map
  induction e with
  | leaf a l => rfl
  | concat a l r ihl ihr => rw [map, restarts, restarts, ihl, ihr, hlang, nullable_map]
  | alternation a l r ihl ihr => rw [map, restarts, restarts, ihl, ihr]
  | repetition a q e ih => rw [map, restarts, restarts, ih, hlang]
  | capture a g e ih => exact ih

/-- Expressions of one shape begin again after the same texts. -/
theorem restarts_of_shape {f : Expr β} (h : e.shape = f.shape) : e.restarts = f.restarts := by
  rw [← restarts_map, ← shape, h, shape, restarts_map]

end Expr

end PositionAutomata
