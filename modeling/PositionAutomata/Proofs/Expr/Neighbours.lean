import PositionAutomata.Proofs.Expr.Words

/-
  Words in which leaves stand.

  Where no repetition has a minimum above its maximum, every expression spells
  some word, and what may stand somewhere does stand there in one: a leaf that
  may begin or end words begins or ends one, and two leaves that may be
  neighbours are neighbours in one. A repetition gives such a word as many more
  iterations as it requires (`Quantifier.exists_allows_succ`,
  `Quantifier.exists_allows_two`). With what every word keeps to, this makes
  `Nullable`, `First`, `Last` and `Follows` exact (`spells_nil_iff`,
  `first_iff_spells`, `last_iff_spells`, `follows_iff_spells`).
-/

namespace PositionAutomata

namespace Quantifier

variable {q : Quantifier}

theorem exists_allows (hv : q.isValid = true) : ∃ n, q.Allows n := by
  refine ⟨q.required, Nat.le_refl _, fun hu => ?_⟩
  simp only [isValid, isUnbounded, required, Bool.or_eq_true, decide_eq_true_eq,
    decide_eq_false_iff_not] at hv hu ⊢
  omega

theorem allows_zero (hs : q.canSkip = true) : q.Allows 0 := by
  simp only [canSkip, decide_eq_true_eq] at hs
  refine ⟨?_, fun hu => ?_⟩
  · rw [required]
    omega
  · simp only [isUnbounded, decide_eq_false_iff_not] at hu
    omega

/-- Some iteration is allowed, as a bound is above zero. -/
theorem exists_allows_succ (hv : q.isValid = true) : ∃ n, q.Allows (n + 1) := by
  refine ⟨q.required - 1, ?_, fun hu => ?_⟩
  · omega
  · simp only [isValid, isUnbounded, required, Bool.or_eq_true, decide_eq_true_eq,
      decide_eq_false_iff_not] at hv hu ⊢
    omega

/-- Where more than one iteration is allowed, so are two or as many more as are required. -/
theorem exists_allows_two (hv : q.isValid = true) (hr : q.canRepeat = true) :
    ∃ n, q.Allows (n + 2) := by
  refine ⟨q.required - 2, ?_, fun hu => ?_⟩
  · omega
  · simp only [isValid, canRepeat, isUnbounded, required, Bool.or_eq_true, decide_eq_true_eq,
      decide_eq_false_iff_not] at hv hr hu ⊢
    omega

end Quantifier

section

variable {β : Type} {p : List β → Prop} {u w : List β}

theorem Repeated.of_nil (h : p []) (n : Nat) : Repeated p n [] := by
  induction n with
  | zero => rfl
  | succ n ih => exact ⟨[], [], rfl, h, ih⟩

theorem Repeated.exists (h : p w) (n : Nat) : ∃ v, Repeated p n v := by
  induction n with
  | zero => exact ⟨[], rfl⟩
  | succ n ih =>
    obtain ⟨v, hv⟩ := ih
    exact ⟨w ++ v, w, v, rfl, h, hv⟩

theorem Repeated.one (h : p w) : Repeated p 1 w := ⟨w, [], (List.append_nil w).symm, h, rfl⟩

/-- A word of the kind and then some more of them. -/
theorem Repeated.exists_append (h : p u) (n : Nat) : ∃ v, Repeated p (n + 1) (u ++ v) := by
  obtain ⟨v, hv⟩ := Repeated.exists h n
  exact ⟨v, u, v, rfl, h, hv⟩

end

namespace Expr

variable {α : Type} {e : Expr α} {x y : α × Leaf}

/-! ## Words that exist -/

theorem exists_spells (hv : e.Valid) : ∃ u, e.Spells u := by
  induction e with
  | leaf a l => exact ⟨_, rfl⟩
  | concat a l r ihl ihr =>
    obtain ⟨v, hl⟩ := ihl hv.1
    obtain ⟨w, hr⟩ := ihr hv.2
    exact ⟨v ++ w, v, w, rfl, hl, hr⟩
  | alternation a l r ihl _ =>
    obtain ⟨v, hl⟩ := ihl hv.1
    exact ⟨v, .inl hl⟩
  | repetition a q e ih =>
    obtain ⟨n, hn⟩ := Quantifier.exists_allows hv.1
    obtain ⟨v, he⟩ := ih hv.2
    obtain ⟨w, hw⟩ := Repeated.exists he n
    exact ⟨w, n, hn, hw⟩
  | capture a g e ih => exact ih hv

theorem spells_nil_iff (hv : e.Valid) : e.Spells [] ↔ e.Nullable := by
  refine ⟨nullable_of_spells, fun h => ?_⟩
  induction e with
  | leaf a l => simp [Spells, show l = .empty from h]
  | concat a l r ihl ihr => exact ⟨[], [], rfl, ihl hv.1 h.1, ihr hv.2 h.2⟩
  | alternation a l r ihl ihr => exact h.imp (ihl hv.1) (ihr hv.2)
  | repetition a q e ih =>
    rcases h with h | h
    · exact ⟨0, Quantifier.allows_zero h, rfl⟩
    · obtain ⟨n, hn⟩ := Quantifier.exists_allows hv.1
      exact ⟨n, hn, Repeated.of_nil (ih hv.2 h) n⟩
  | capture a g e ih => exact ih hv h

/-- Every leaf that may begin a word begins one. -/
theorem exists_spells_cons (hv : e.Valid) (h : e.First x) : ∃ v, e.Spells (x :: v) := by
  induction e with
  | leaf a k =>
    obtain ⟨hk, rfl⟩ := h
    exact ⟨[], by simp [Spells, hk]⟩
  | concat a l r ihl ihr =>
    rcases h with h | ⟨hn, h⟩
    · obtain ⟨v, hl⟩ := ihl hv.1 h
      obtain ⟨w, hr⟩ := exists_spells hv.2
      exact ⟨v ++ w, x :: v, w, rfl, hl, hr⟩
    · obtain ⟨w, hr⟩ := ihr hv.2 h
      exact ⟨w, [], x :: w, rfl, (spells_nil_iff hv.1).mpr hn, hr⟩
  | alternation a l r ihl ihr =>
    rcases h with h | h
    · obtain ⟨v, hl⟩ := ihl hv.1 h
      exact ⟨v, .inl hl⟩
    · obtain ⟨v, hr⟩ := ihr hv.2 h
      exact ⟨v, .inr hr⟩
  | repetition a q e ih =>
    obtain ⟨n, hn⟩ := Quantifier.exists_allows_succ hv.1
    obtain ⟨v, he⟩ := ih hv.2 h
    obtain ⟨w, hw⟩ := Repeated.exists_append he n
    exact ⟨v ++ w, n + 1, hn, hw⟩
  | capture a g e ih => exact ih hv h

/-- Every leaf that may end a word ends one. -/
theorem exists_spells_concat (hv : e.Valid) (h : e.Last x) : ∃ v, e.Spells (v ++ [x]) := by
  induction e with
  | leaf a k =>
    obtain ⟨hk, rfl⟩ := h
    exact ⟨[], by simp [Spells, hk]⟩
  | concat a l r ihl ihr =>
    rcases h with h | ⟨hn, h⟩
    · obtain ⟨v, hl⟩ := exists_spells hv.1
      obtain ⟨w, hr⟩ := ihr hv.2 h
      exact ⟨v ++ w, v, w ++ [x], List.append_assoc .., hl, hr⟩
    · obtain ⟨v, hl⟩ := ihl hv.1 h
      exact ⟨v, v ++ [x], [], (List.append_nil _).symm, hl, (spells_nil_iff hv.2).mpr hn⟩
  | alternation a l r ihl ihr =>
    rcases h with h | h
    · obtain ⟨v, hl⟩ := ihl hv.1 h
      exact ⟨v, .inl hl⟩
    · obtain ⟨v, hr⟩ := ihr hv.2 h
      exact ⟨v, .inr hr⟩
  | repetition a q e ih =>
    obtain ⟨n, hn⟩ := Quantifier.exists_allows_succ hv.1
    obtain ⟨v, he⟩ := ih hv.2 h
    obtain ⟨u, hu⟩ := Repeated.exists he n
    refine ⟨u ++ v, n + 1, hn, ?_⟩
    rw [List.append_assoc]
    exact hu.append (.one he)
  | capture a g e ih => exact ih hv h

/-- Every two leaves that may be neighbours are neighbours in a word. -/
theorem exists_spells_pair (hv : e.Valid) (h : e.Follows x y) :
    ∃ u v, e.Spells (u ++ x :: y :: v) := by
  induction e with
  | leaf a k => exact h.elim
  | concat a l r ihl ihr =>
    rcases h with h | h | ⟨hx, hy⟩
    · obtain ⟨u, v, hl⟩ := ihl hv.1 h
      obtain ⟨w, hr⟩ := exists_spells hv.2
      exact ⟨u, v ++ w, u ++ x :: y :: v, w, by simp, hl, hr⟩
    · obtain ⟨w, hl⟩ := exists_spells hv.1
      obtain ⟨u, v, hr⟩ := ihr hv.2 h
      exact ⟨w ++ u, v, w, u ++ x :: y :: v, by simp, hl, hr⟩
    · obtain ⟨u, hl⟩ := exists_spells_concat hv.1 hx
      obtain ⟨v, hr⟩ := exists_spells_cons hv.2 hy
      exact ⟨u, v, u ++ [x], y :: v, by simp, hl, hr⟩
  | alternation a l r ihl ihr =>
    rcases h with h | h
    · obtain ⟨u, v, hl⟩ := ihl hv.1 h
      exact ⟨u, v, .inl hl⟩
    · obtain ⟨u, v, hr⟩ := ihr hv.2 h
      exact ⟨u, v, .inr hr⟩
  | repetition a q e ih =>
    -- The two stand in one iteration, or the first ends one and the second begins the next.
    rcases h with h | ⟨hr, hx, hy⟩
    · obtain ⟨n, hn⟩ := Quantifier.exists_allows_succ hv.1
      obtain ⟨u, v, he⟩ := ih hv.2 h
      obtain ⟨w, hw⟩ := Repeated.exists_append he n
      exact ⟨u, v ++ w, n + 1, hn, by simpa using hw⟩
    · obtain ⟨n, hn⟩ := Quantifier.exists_allows_two hv.1 hr
      obtain ⟨u, hu⟩ := exists_spells_concat hv.2 hx
      obtain ⟨v, he⟩ := exists_spells_cons hv.2 hy
      obtain ⟨w, hw⟩ := Repeated.exists_append he n
      exact ⟨u, v ++ w, n + 2, hn, u ++ [x], y :: v ++ w, by simp, hu, hw⟩
  | capture a g e ih => exact ih hv h

/-! ## What may stand where -/

theorem first_iff_spells (hv : e.Valid) : e.First x ↔ ∃ v, e.Spells (x :: v) := by
  constructor
  · exact exists_spells_cons hv
  · intro h
    obtain ⟨v, hv⟩ := h
    exact first_of_spells hv

theorem last_iff_spells (hv : e.Valid) : e.Last x ↔ ∃ v, e.Spells (v ++ [x]) := by
  constructor
  · exact exists_spells_concat hv
  · intro h
    obtain ⟨v, hv⟩ := h
    exact last_of_spells hv

theorem follows_iff_spells (hv : e.Valid) :
    e.Follows x y ↔ ∃ u v, e.Spells (u ++ x :: y :: v) := by
  constructor
  · exact exists_spells_pair hv
  · intro h
    obtain ⟨u, v, hv⟩ := h
    exact follows_of_spells hv

end Expr

end PositionAutomata
