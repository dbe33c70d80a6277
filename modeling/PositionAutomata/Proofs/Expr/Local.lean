import PositionAutomata.Tree.Copy
import PositionAutomata.Proofs.Expr.Neighbours

/-
  Words by their neighbours.

  Where no leaf occurs twice and no repetition counts its iterations, what may
  follow a leaf does not depend on what came before it. A word is then spelled
  exactly if its first leaf may begin a word, each other one may follow the one
  before it, and the last one may end a word (`spells_cons_iff`). A path through
  a concatenation crosses from left to right once (`Continues.of_concat_left`),
  and a path through a repetition is cut into iterations where it goes back to
  the beginning (`Continues.of_repetition`).
-/

namespace PositionAutomata

namespace Quantifier

/-- A repetition that is not counted may have one iteration. -/
theorem allows_one {q : Quantifier} (hv : q.isValid = true) (hc : q.isCounted = false) :
    q.Allows 1 := by
  simp only [isValid, isCounted, isUnbounded, Bool.or_eq_true, decide_eq_true_eq] at hv hc
  constructor
  · rw [required]
    split at hc <;> simp at hc <;> omega
  · intro hu
    simp only [isUnbounded, decide_eq_false_iff_not] at hu
    omega

/-- A repetition that is not counted may have any number of iterations above one if it may have
more than one. -/
theorem allows_of_canRepeat {q : Quantifier} (hc : q.isCounted = false) (hr : q.canRepeat = true)
    {n : Nat} (hn : 0 < n) : q.Allows n := by
  simp only [isCounted, canRepeat, isUnbounded, Bool.or_eq_true, decide_eq_true_eq] at hc hr
  have hmax : q.max ≤ 0 := by
    apply hr.resolve_right
    intro hlt
    rw [if_neg (by omega), decide_eq_false_iff_not] at hc
    exact hc hlt
  rw [if_pos hmax] at hc
  simp only [decide_eq_false_iff_not] at hc
  refine ⟨?_, fun hu => ?_⟩
  · rw [required]
    omega
  · simp only [isUnbounded, decide_eq_false_iff_not] at hu
    omega

end Quantifier

namespace Expr

variable {α : Type}

/-- No repetition is counted, unless it is one of the empty leaf, and each has a minimum up to
its maximum. -/
def Unrolled : Expr α → Prop
  | leaf _ _ => True
  | concat _ l r => l.Unrolled ∧ r.Unrolled
  | alternation _ l r => l.Unrolled ∧ r.Unrolled
  | repetition _ q e => q.isValid = true ∧ (q.isCounted = false ∨ e.isEmptyLeaf = true) ∧ e.Unrolled
  | capture _ _ e => e.Unrolled

/-- No leaf occurs twice. -/
def Linear (e : Expr α) : Prop := e.leaves.Nodup

/-- After a leaf a word may go on with the given ones to its end. -/
def Continues (e : Expr α) : α × Leaf → List (α × Leaf) → Prop
  | x, [] => e.Last x
  | x, y :: u => e.Follows x y ∧ e.Continues y u

theorem Unrolled.valid {e : Expr α} (h : e.Unrolled) : e.Valid := by
  induction e with
  | leaf a l => trivial
  | concat a l r ihl ihr => exact ⟨ihl h.1, ihr h.2⟩
  | alternation a l r ihl ihr => exact ⟨ihl h.1, ihr h.2⟩
  | repetition a q e ih => exact ⟨h.1, ih h.2.2⟩
  | capture a g e ih => exact ih h

theorem unrolled_map {β : Type} {f : α → β} {e : Expr α} : (e.map f).Unrolled ↔ e.Unrolled := by
  induction e with
  | leaf a l => exact Iff.rfl
  | concat a l r ihl ihr => simp only [map, Unrolled, ihl, ihr]
  | alternation a l r ihl ihr => simp only [map, Unrolled, ihl, ihr]
  | repetition a q e ih => simp only [map, Unrolled, ih, isEmptyLeaf_map]
  | capture a g e ih => simp only [map, Unrolled, ih]

theorem Linear.left {e f : Expr α} (h : (e.leaves ++ f.leaves).Nodup) : e.Linear :=
  (List.nodup_append.mp h).1

theorem Linear.right {e f : Expr α} (h : (e.leaves ++ f.leaves).Nodup) : f.Linear :=
  (List.nodup_append.mp h).2.1

theorem Linear.disjoint {e f : Expr α} (h : (e.leaves ++ f.leaves).Nodup) {x : α × Leaf}
    (he : x ∈ e.leaves) (hf : x ∈ f.leaves) : False :=
  (List.nodup_append.mp h).2.2 x he x hf rfl

/-! ## Paths through the parts of an expression -/

section

variable {a : α} {l r : Expr α} {x : α × Leaf} {u : List (α × Leaf)}

/-- A path that has come to the right part of a concatenation stays there. -/
theorem Continues.of_concat_right (hlin : (l.leaves ++ r.leaves).Nodup)
    (h : (concat a l r).Continues x u) (hx : x ∈ r.leaves) : r.Continues x u := by
  induction u generalizing x with
  | nil => exact h.resolve_right fun h => Linear.disjoint hlin (mem_leaves_of_last h.2) hx
  | cons y u ih =>
    obtain ⟨hxy, hu⟩ := h
    -- Both other ways to follow would put `x` among the leaves of the left part.
    have hr : r.Follows x y := by
      rcases hxy with hxy | hxy | ⟨hxl, _⟩
      · exact (Linear.disjoint hlin (mem_leaves_of_follows hxy).1 hx).elim
      · exact hxy
      · exact (Linear.disjoint hlin (mem_leaves_of_last hxl) hx).elim
    exact ⟨hr, ih hu (mem_leaves_of_follows hr).2⟩

/-- A path from the left part of a concatenation ends there, or crosses to the right part. -/
theorem Continues.of_concat_left (hlin : (l.leaves ++ r.leaves).Nodup)
    (h : (concat a l r).Continues x u) (hx : x ∈ l.leaves) :
    (l.Continues x u ∧ r.Nullable) ∨
      ∃ v y w, u = v ++ y :: w ∧ l.Continues x v ∧ r.First y ∧ r.Continues y w := by
  induction u generalizing x with
  | nil =>
    rcases h with hr | ⟨hn, hl⟩
    · exact (Linear.disjoint hlin hx (mem_leaves_of_last hr)).elim
    · exact .inl ⟨hl, hn⟩
  | cons y u ih =>
    obtain ⟨hxy, hu⟩ := h
    -- The next leaf is in the left part still, or the path crosses here.
    rcases hxy with hxy | hxy | ⟨hxl, hyf⟩
    · rcases ih hu (mem_leaves_of_follows hxy).2 with ⟨hl, hn⟩ | ⟨v, z, w, rfl, hl, hz, hr⟩
      · exact .inl ⟨⟨hxy, hl⟩, hn⟩
      · exact .inr ⟨y :: v, z, w, rfl, ⟨hxy, hl⟩, hz, hr⟩
    · exact (Linear.disjoint hlin hx (mem_leaves_of_follows hxy).1).elim
    · exact .inr ⟨[], y, u, rfl, hxl, hyf, hu.of_concat_right hlin (mem_leaves_of_first hyf)⟩

theorem Continues.of_alternation_left (hlin : (l.leaves ++ r.leaves).Nodup)
    (h : (alternation a l r).Continues x u) (hx : x ∈ l.leaves) : l.Continues x u := by
  induction u generalizing x with
  | nil => exact h.resolve_right fun h => Linear.disjoint hlin hx (mem_leaves_of_last h)
  | cons y u ih =>
    obtain ⟨hxy, hu⟩ := h
    have hl : l.Follows x y :=
      hxy.resolve_right fun h => Linear.disjoint hlin hx (mem_leaves_of_follows h).1
    exact ⟨hl, ih hu (mem_leaves_of_follows hl).2⟩

theorem Continues.of_alternation_right (hlin : (l.leaves ++ r.leaves).Nodup)
    (h : (alternation a l r).Continues x u) (hx : x ∈ r.leaves) : r.Continues x u := by
  induction u generalizing x with
  | nil => exact h.resolve_left fun h => Linear.disjoint hlin (mem_leaves_of_last h) hx
  | cons y u ih =>
    obtain ⟨hxy, hu⟩ := h
    have hr : r.Follows x y :=
      hxy.resolve_left fun h => Linear.disjoint hlin (mem_leaves_of_follows h).1 hx
    exact ⟨hr, ih hu (mem_leaves_of_follows hr).2⟩

/-- A path through a repetition is the rest of an iteration and some more iterations, of which
there are none if only one is allowed. -/
theorem Continues.of_repetition {q : Quantifier} {e : Expr α}
    (he : ∀ {y v}, e.First y → e.Continues y v → e.Spells (y :: v))
    (h : (repetition a q e).Continues x u) :
    ∃ v w n, u = v ++ w ∧ e.Continues x v ∧ Repeated e.Spells n w ∧
      (0 < n → q.canRepeat = true) := by
  induction u generalizing x with
  | nil => exact ⟨[], [], 0, rfl, h, rfl, fun h => absurd h (Nat.lt_irrefl 0)⟩
  | cons y u ih =>
    obtain ⟨hxy, hu⟩ := h
    obtain ⟨v, w, n, rfl, hv, hw, hn⟩ := ih hu
    -- The step to `y` stays in the iteration, or it ends it and `y` begins the next one.
    rcases hxy with hxy | ⟨hr, hx, hy⟩
    · exact ⟨y :: v, w, n, rfl, ⟨hxy, hv⟩, hw, hn⟩
    · exact ⟨[], y :: v ++ w, n + 1, rfl, hx, ⟨y :: v, w, rfl, he hy hv, hw⟩, fun _ => hr⟩

end

theorem continues_capture {a : α} {g : Group} {e : Expr α} {x : α × Leaf} {u : List (α × Leaf)} :
    (capture a g e).Continues x u ↔ e.Continues x u := by
  induction u generalizing x with
  | nil => exact Iff.rfl
  | cons y u ih => exact and_congr_right fun _ => ih

/-! ## Spelled words -/

theorem exists_of_isEmptyLeaf {e : Expr α} (h : e.isEmptyLeaf = true) : ∃ a, e = leaf a .empty := by
  cases e with
  | leaf a l =>
    obtain rfl : l = .empty := of_decide_eq_true h
    exact ⟨a, rfl⟩
  | _ => exact absurd h (by simp [isEmptyLeaf])

theorem not_first_of_isEmptyLeaf {e : Expr α} (h : e.isEmptyLeaf = true) (x : α × Leaf) :
    ¬ e.First x := by
  obtain ⟨a, rfl⟩ := exists_of_isEmptyLeaf h
  exact fun hx => hx.1 rfl

theorem spells_of_continues {e : Expr α} (hu : e.Unrolled) (hlin : e.Linear) {x : α × Leaf}
    {u : List (α × Leaf)} (hx : e.First x) (h : e.Continues x u) : e.Spells (x :: u) := by
  induction e generalizing x u with
  | leaf a l =>
    obtain ⟨hl, rfl⟩ := hx
    cases u with
    | nil => simp [Spells, hl]
    | cons y u => exact h.1.elim
  | concat a l r ihl ihr =>
    rw [Linear, leaves_concat] at hlin
    rcases hx with hx | ⟨hn, hx⟩
    · rcases h.of_concat_left hlin (mem_leaves_of_first hx) with
        ⟨hl, hr⟩ | ⟨v, y, w, rfl, hl, hy, hr⟩
      · exact ⟨x :: u, [], (List.append_nil _).symm, ihl hu.1 (Linear.left hlin) hx hl,
          (spells_nil_iff hu.2.valid).mpr hr⟩
      · exact ⟨x :: v, y :: w, rfl, ihl hu.1 (Linear.left hlin) hx hl,
          ihr hu.2 (Linear.right hlin) hy hr⟩
    · have hr := h.of_concat_right hlin (mem_leaves_of_first hx)
      exact ⟨[], x :: u, rfl, (spells_nil_iff hu.1.valid).mpr hn, ihr hu.2 (Linear.right hlin) hx hr⟩
  | alternation a l r ihl ihr =>
    rw [Linear, leaves_alternation] at hlin
    rcases hx with hx | hx
    · have hl := h.of_alternation_left hlin (mem_leaves_of_first hx)
      exact .inl (ihl hu.1 (Linear.left hlin) hx hl)
    · have hr := h.of_alternation_right hlin (mem_leaves_of_first hx)
      exact .inr (ihr hu.2 (Linear.right hlin) hx hr)
  | repetition a q e ih =>
    obtain ⟨hv, hc, he⟩ := hu
    have hc : q.isCounted = false := hc.resolve_right fun hc => not_first_of_isEmptyLeaf hc x hx
    have hone : ∀ {y v}, e.First y → e.Continues y v → e.Spells (y :: v) := fun hy hv =>
      ih he hlin hy hv
    obtain ⟨v, w, n, rfl, hv', hw, hn⟩ := h.of_repetition hone
    -- A repetition that is not counted allows this many iterations: one always, more if it repeats.
    refine ⟨n + 1, ?_, x :: v, w, rfl, hone hx hv', hw⟩
    rcases Nat.eq_zero_or_pos n with rfl | hpos
    · exact Quantifier.allows_one hv hc
    · exact Quantifier.allows_of_canRepeat hc (hn hpos) (Nat.succ_pos n)
  | capture a g e ih => exact ih hu hlin hx (continues_capture.mp h)

theorem continues_of_spells {e : Expr α} {x : α × Leaf} {u v : List (α × Leaf)}
    (h : e.Spells (u ++ x :: v)) : e.Continues x v := by
  induction v generalizing u x with
  | nil => exact last_of_spells h
  | cons y v ih =>
    refine ⟨follows_of_spells h, ih (u := u ++ [x]) ?_⟩
    rwa [List.append_assoc]

/-- The words of a kind are those that an expression allows by their first leaf, their neighbours
and their last leaf. -/
structure Guides (e : Expr α) (s : List (α × Leaf) → Prop) : Prop where
  first {x : α × Leaf} {u : List (α × Leaf)} : s (x :: u) → e.First x
  follows {x y : α × Leaf} {u v : List (α × Leaf)} : s (u ++ x :: y :: v) → e.Follows x y
  word {x : α × Leaf} {u : List (α × Leaf)} : e.First x → e.Continues x u → s (x :: u)

theorem guides_spells {e : Expr α} (hu : e.Unrolled) (hlin : e.Linear) : e.Guides e.Spells :=
  ⟨first_of_spells, follows_of_spells, spells_of_continues hu hlin⟩

theorem Guides.mem_leaves {e : Expr α} {s : List (α × Leaf) → Prop} (h : e.Guides s)
    {u v : List (α × Leaf)} {x : α × Leaf} (hs : s (u ++ x :: v)) : x ∈ e.leaves := by
  rcases List.eq_nil_or_concat u with rfl | ⟨w, y, rfl⟩
  · exact mem_leaves_of_first (h.first hs)
  · rw [List.concat_append] at hs
    exact (mem_leaves_of_follows (h.follows hs)).2

/-- A word is spelled exactly if all its neighbours and its ends may stand where they do. -/
theorem spells_cons_iff {e : Expr α} (hu : e.Unrolled) (hlin : e.Linear) {x : α × Leaf}
    {u : List (α × Leaf)} : e.Spells (x :: u) ↔ e.First x ∧ e.Continues x u :=
  ⟨fun h => ⟨first_of_spells h, continues_of_spells (u := []) h⟩,
    fun h => spells_of_continues hu hlin h.1 h.2⟩

end Expr

end PositionAutomata
