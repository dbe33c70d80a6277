import PositionAutomata.Proofs.Expr.Unrolling

/-
  Expressions with loosened repetitions.

  Of the bounds of a repetition the neighbours of leaves show two bits: whether
  there may be no iteration, and whether there may be more than one. A loosened
  repetition keeps these and forgets the rest (`allows_loosened_iff`), so it is
  a star, a plus, optional, or a single iteration, and is never counted. Where
  no leaf occurs twice, the words that an expression allows by their neighbours
  are therefore those that the loosened one spells, whatever the expression
  itself counts (`guides_loosened`); and what an expression matches, the
  loosened one matches too (`Matches.loosened`).
-/

namespace PositionAutomata

namespace Quantifier

/-- Any number of iterations if more than one is allowed and at most one otherwise; none of them
only if that is allowed. -/
def loosened (q : Quantifier) : Quantifier :=
  if q.isUnbounded || 1 < q.max then
    if q.min ≤ 0 then { star with lazy := q.lazy } else { plus with lazy := q.lazy }
  else if q.min ≤ 0 then { optional with lazy := q.lazy } else ⟨1, 1, q.lazy⟩

variable {q : Quantifier}

theorem loosened_cases (q : Quantifier) :
    (q.canRepeat = true ∧ q.canSkip = true ∧ q.loosened = ⟨0, unbounded, q.lazy⟩) ∨
    (q.canRepeat = true ∧ q.canSkip = false ∧ q.loosened = ⟨1, unbounded, q.lazy⟩) ∨
    (q.canRepeat = false ∧ q.canSkip = true ∧ q.loosened = ⟨0, 1, q.lazy⟩) ∨
    (q.canRepeat = false ∧ q.canSkip = false ∧ q.loosened = ⟨1, 1, q.lazy⟩) := by
  rw [loosened, canRepeat, canSkip]
  by_cases hr : (q.isUnbounded || decide (1 < q.max)) = true <;> by_cases hs : q.min ≤ 0 <;>
    simp [hr, hs, star, plus, optional]

theorem canRepeat_loosened : q.loosened.canRepeat = q.canRepeat := by
  rcases loosened_cases q with ⟨hr, _, h⟩ | ⟨hr, _, h⟩ | ⟨hr, _, h⟩ | ⟨hr, _, h⟩ <;>
    rw [h, hr] <;> rfl

theorem canSkip_loosened : q.loosened.canSkip = q.canSkip := by
  rcases loosened_cases q with ⟨_, hs, h⟩ | ⟨_, hs, h⟩ | ⟨_, hs, h⟩ | ⟨_, hs, h⟩ <;>
    rw [h, hs] <;> rfl

theorem isValid_loosened : q.loosened.isValid = true := by
  rcases loosened_cases q with ⟨_, _, h⟩ | ⟨_, _, h⟩ | ⟨_, _, h⟩ | ⟨_, _, h⟩ <;> rw [h] <;> rfl

theorem isCounted_loosened : q.loosened.isCounted = false := by
  rcases loosened_cases q with ⟨_, _, h⟩ | ⟨_, _, h⟩ | ⟨_, _, h⟩ | ⟨_, _, h⟩ <;> rw [h] <;> rfl

/-- A loosened repetition has no iteration, or more than one, exactly if the repetition may. -/
theorem allows_loosened_iff {n : Nat} :
    q.loosened.Allows n ↔ (n = 0 → q.canSkip = true) ∧ (1 < n → q.canRepeat = true) := by
  constructor
  · intro h
    rw [← canSkip_loosened, ← canRepeat_loosened]
    exact ⟨fun hn => (hn ▸ h).canSkip, h.canRepeat⟩
  · intro h
    obtain ⟨hs, hr⟩ := h
    rcases Nat.lt_trichotomy n 1 with hn | rfl | hn
    · obtain rfl := Nat.lt_one_iff.mp hn
      exact allows_zero (canSkip_loosened.trans (hs rfl))
    · exact allows_one isValid_loosened isCounted_loosened
    · exact allows_of_canRepeat isCounted_loosened (canRepeat_loosened.trans (hr hn))
        (Nat.zero_lt_of_lt hn)

theorem Allows.loosened {n : Nat} (h : q.Allows n) : q.loosened.Allows n :=
  allows_loosened_iff.mpr ⟨fun hn => (hn ▸ h).canSkip, h.canRepeat⟩

end Quantifier

theorem Iterated.mono {m m' : Nat → Nat → Prop} (h : ∀ i j, m i j → m' i j) {n i j : Nat}
    (hm : Iterated m n i j) : Iterated m' n i j := by
  induction n generalizing i with
  | zero => exact hm
  | succ n ih =>
    obtain ⟨k, hk, hj⟩ := hm
    exact ⟨k, h i k hk, ih hj⟩

namespace Expr

variable {α β : Type}

/-- The expression with every repetition loosened. -/
def loosened : Expr α → Expr α
  | leaf a l => leaf a l
  | concat a l r => concat a l.loosened r.loosened
  | alternation a l r => alternation a l.loosened r.loosened
  | repetition a q e => repetition a q.loosened e.loosened
  | capture a g e => capture a g e.loosened

theorem loosened_concat {a : α} {l r : Expr α} :
    (concat a l r).loosened = concat a l.loosened r.loosened := rfl

theorem loosened_alternation {a : α} {l r : Expr α} :
    (alternation a l r).loosened = alternation a l.loosened r.loosened := rfl

theorem loosened_repetition {a : α} {q : Quantifier} {e : Expr α} :
    (repetition a q e).loosened = repetition a q.loosened e.loosened := rfl

theorem loosened_capture {a : α} {g : Group} {e : Expr α} :
    (capture a g e).loosened = capture a g e.loosened := rfl

/-- What matches still matches when repetitions are loosened. -/
theorem Matches.loosened {text : List Char} {e : Expr α} {i j : Nat} (h : e.Matches text i j) :
    e.loosened.Matches text i j := by
  induction e generalizing i j with
  | leaf a l => exact h
  | concat a l r ihl ihr =>
    obtain ⟨k, hl, hr⟩ := h
    exact ⟨k, ihl hl, ihr hr⟩
  | alternation a l r ihl ihr => exact h.imp ihl ihr
  | repetition a q e ih =>
    obtain ⟨n, hn, h⟩ := h
    exact ⟨n, hn.loosened, h.mono fun _ _ => ih⟩
  | capture a g e ih => exact ih h

/-! ## What loosening keeps -/

theorem loosened_map {f : α → β} {e : Expr α} : (e.map f).loosened = e.loosened.map f := by
  induction e with
  | leaf a l => rfl
  | concat a l r ihl ihr => simp only [map, loosened_concat, ihl, ihr]
  | alternation a l r ihl ihr => simp only [map, loosened_alternation, ihl, ihr]
  | repetition a q e ih => simp only [map, loosened_repetition, ih]
  | capture a g e ih => simp only [map, loosened_capture, ih]

theorem leaves_loosened {e : Expr α} : e.loosened.leaves = e.leaves := by
  induction e with
  | leaf a l => rfl
  | concat a l r ihl ihr => simp only [loosened_concat, leaves_concat, ihl, ihr]
  | alternation a l r ihl ihr => simp only [loosened_alternation, leaves_alternation, ihl, ihr]
  | repetition a q e ih => exact ih
  | capture a g e ih => exact ih

theorem alternatives_loosened {e : Expr α} :
    e.loosened.alternatives = e.alternatives.map loosened := by
  induction e with
  | alternation a l r ihl ihr =>
    simp only [loosened_alternation, alternatives, ihl, ihr, List.map_append]
  | _ => rfl

theorem loosened_joined (join : Expr Unit → Expr Unit → Expr Unit)
    (h : ∀ e f, (join e f).loosened = join e.loosened f.loosened) {es : List (Expr Unit)} :
    (joined join es).loosened = joined join (es.map loosened) := by
  cases es with
  | nil => rfl
  | cons e rest =>
    rw [joined, List.map_cons, joined]
    induction rest generalizing e with
    | nil => rfl
    | cons f rest ih => rw [List.foldl_cons, ih, List.map_cons, List.foldl_cons, h]

/-- Loosened, an expression counts nothing. -/
theorem unrolled_loosened {e : Expr α} : e.loosened.Unrolled := by
  induction e with
  | leaf a l => trivial
  | concat a l r ihl ihr => exact ⟨ihl, ihr⟩
  | alternation a l r ihl ihr => exact ⟨ihl, ihr⟩
  | repetition a q e ih =>
    exact ⟨Quantifier.isValid_loosened, .inl Quantifier.isCounted_loosened, ih⟩
  | capture a g e ih => exact ih

/-! ## Neighbours -/

theorem nullable_loosened {e : Expr α} : e.loosened.Nullable ↔ e.Nullable := by
  induction e with
  | leaf a l => exact Iff.rfl
  | concat a l r ihl ihr => simp only [loosened_concat, Nullable, ihl, ihr]
  | alternation a l r ihl ihr => simp only [loosened_alternation, Nullable, ihl, ihr]
  | repetition a q e ih =>
    simp only [loosened_repetition, Nullable, ih, Quantifier.canSkip_loosened]
  | capture a g e ih => exact ih

theorem first_loosened {e : Expr α} {x : α × Leaf} : e.loosened.First x ↔ e.First x := by
  induction e with
  | leaf a l => exact Iff.rfl
  | concat a l r ihl ihr => simp only [loosened_concat, First, ihl, ihr, nullable_loosened]
  | alternation a l r ihl ihr => simp only [loosened_alternation, First, ihl, ihr]
  | repetition a q e ih => exact ih
  | capture a g e ih => exact ih

theorem last_loosened {e : Expr α} {x : α × Leaf} : e.loosened.Last x ↔ e.Last x := by
  induction e with
  | leaf a l => exact Iff.rfl
  | concat a l r ihl ihr => simp only [loosened_concat, Last, ihl, ihr, nullable_loosened]
  | alternation a l r ihl ihr => simp only [loosened_alternation, Last, ihl, ihr]
  | repetition a q e ih => exact ih
  | capture a g e ih => exact ih

theorem follows_loosened {e : Expr α} {x y : α × Leaf} :
    e.loosened.Follows x y ↔ e.Follows x y := by
  induction e with
  | leaf a l => exact Iff.rfl
  | concat a l r ihl ihr =>
    simp only [loosened_concat, Follows, ihl, ihr, last_loosened, first_loosened]
  | alternation a l r ihl ihr => simp only [loosened_alternation, Follows, ihl, ihr]
  | repetition a q e ih =>
    simp only [loosened_repetition, Follows, ih, Quantifier.canRepeat_loosened, last_loosened,
      first_loosened]
  | capture a g e ih => exact ih

theorem continues_loosened {e : Expr α} {x : α × Leaf} {u : List (α × Leaf)} :
    e.loosened.Continues x u ↔ e.Continues x u := by
  induction u generalizing x with
  | nil => exact last_loosened
  | cons y u ih => exact and_congr follows_loosened ih

/-- The words that an expression allows by their neighbours are those of the loosened one. -/
theorem guides_loosened {e : Expr α} (hlin : e.Linear) : e.Guides e.loosened.Spells := by
  have hlin' : e.loosened.Linear := by rwa [Linear, leaves_loosened]
  have hguides : e.loosened.Guides e.loosened.Spells := guides_spells unrolled_loosened hlin'
  exact {
    first := fun h => first_loosened.mp (hguides.first h)
    follows := fun h => follows_loosened.mp (hguides.follows h)
    word := fun hx hu => hguides.word (first_loosened.mpr hx) (continues_loosened.mpr hu) }

end Expr

end PositionAutomata
