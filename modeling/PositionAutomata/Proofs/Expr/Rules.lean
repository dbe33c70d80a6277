import PositionAutomata.Proofs.Expr.Unrolling

/-
  Rules and their terminators.

  An expression is ruled if it is a choice between rules that each end with the
  only terminator in them. Every terminator then ends words (`Ruled.last`), and
  a choice of rules spells a word that ends with a terminator exactly if the
  rule of that terminator spells the rest (`spells_anyOf`, `spells_rule_iff`).
-/

namespace PositionAutomata

/-- The leaf is no terminator. -/
def Leaf.IsPlain (l : Leaf) : Prop := l.symbol? = none

instance : DecidablePred Leaf.IsPlain := fun l => inferInstanceAs (Decidable (l.symbol? = none))

namespace Expr

variable {α β : Type}

/-- A choice between expressions without terminators, each followed by a terminator. -/
inductive Ruled : Expr α → Prop where
  | rule {a b : α} {e : Expr α} {symbol : Symbol} : e.AllLeaves Leaf.IsPlain →
      Ruled (concat a e (leaf b (.terminator symbol)))
  | choice {a : α} {l r : Expr α} : Ruled l → Ruled r → Ruled (alternation a l r)

theorem Ruled.of_map {f : α → β} {e : Expr α} (h : (e.map f).Ruled) : e.Ruled := by
  induction e with
  | leaf a l => cases h
  | concat a l r ihl ihr =>
    cases r with
    | leaf b m =>
      cases h with
      | rule hl => exact .rule (allLeaves_map.mp hl)
    | _ => cases h
  | alternation a l r ihl ihr =>
    cases h with
    | choice hl hr => exact .choice (ihl hl) (ihr hr)
  | repetition a q e ih => cases h
  | capture a g e ih => cases h

/-- Terminators end words. -/
theorem Ruled.last {e : Expr α} (h : e.Ruled) {x : α × Leaf} (hx : x ∈ e.leaves) {n : Symbol}
    (hn : x.2.symbol? = some n) : e.Last x := by
  induction h with
  | @rule a b e symbol he =>
    rw [leaves_concat, List.mem_append] at hx
    rcases hx with hx | hx
    · have hplain : x.2.symbol? = none := allLeaves_iff.mp he x hx
      rw [hplain] at hn
      exact absurd hn (by simp)
    · exact .inl ⟨by simp, List.mem_singleton.mp hx⟩
  | choice _ _ ihl ihr =>
    rw [leaves_alternation, List.mem_append] at hx
    exact hx.imp ihl ihr

/-! ## Words without tags -/

theorem map_joined_iff {f : α → β} {p q : List (α × Leaf) → Prop} {v : List (β × Leaf)} :
    (∃ v₁ v₂, v = v₁ ++ v₂ ∧ (∃ u, p u ∧ u.map (Prod.map f id) = v₁) ∧
        ∃ w, q w ∧ w.map (Prod.map f id) = v₂) ↔
      ∃ x, (∃ u w, x = u ++ w ∧ p u ∧ q w) ∧ x.map (Prod.map f id) = v := by
  constructor
  · intro h
    obtain ⟨_, _, rfl, ⟨u, hu, rfl⟩, w, hw, rfl⟩ := h
    exact ⟨u ++ w, ⟨u, w, rfl, hu, hw⟩, List.map_append⟩
  · intro h
    obtain ⟨_, ⟨u, w, rfl, hu, hw⟩, rfl⟩ := h
    exact ⟨_, _, List.map_append, ⟨u, hu, rfl⟩, w, hw, rfl⟩

theorem repeated_map {f : α → β} {e : Expr α}
    (h : ∀ v, (e.map f).Spells v ↔ ∃ u, e.Spells u ∧ u.map (Prod.map f id) = v) {n : Nat}
    {v : List (β × Leaf)} :
    Repeated (e.map f).Spells n v ↔
      ∃ u, Repeated e.Spells n u ∧ u.map (Prod.map f id) = v := by
  induction n generalizing v with
  | zero => simp [Repeated, eq_comm]
  | succ n ih =>
    simp only [Repeated, h, ih]
    exact map_joined_iff

/-- With other tags the same words are spelled, with other tags. -/
theorem spells_map {f : α → β} {e : Expr α} {v : List (β × Leaf)} :
    (e.map f).Spells v ↔ ∃ u, e.Spells u ∧ u.map (Prod.map f id) = v := by
  induction e generalizing v with
  | leaf a l => by_cases hl : l = .empty <;> simp [map, Spells, hl, eq_comm]
  | concat a l r ihl ihr =>
    simp only [map, Spells, ihl, ihr]
    exact map_joined_iff
  | alternation a l r ihl ihr => simp only [map, Spells, ihl, ihr, or_and_right, exists_or]
  | repetition a q e ih =>
    simp only [map, Spells, repeated_map fun v => ih]
    constructor
    · intro h
      obtain ⟨n, hn, u, hu, rfl⟩ := h
      exact ⟨u, ⟨n, hn, hu⟩, rfl⟩
    · intro h
      obtain ⟨u, ⟨n, hn, hu⟩, rfl⟩ := h
      exact ⟨n, hn, u, hu, rfl⟩
  | capture a g e ih => exact ih

theorem consumes_map {text : List Char} {f : α → β} {u : List (α × Leaf)} {i j : Nat} :
    Consumes text (u.map (Prod.map f id)) i j ↔ Consumes text u i j := by
  induction u generalizing i with
  | nil => exact Iff.rfl
  | cons x u ih => simp only [List.map_cons, Consumes, ih, Prod.map_snd, id]

/-! ## Words of rules -/

theorem spells_anyOf {es : List (Expr Unit)} (hne : es ≠ []) {v : List (Unit × Leaf)} :
    (anyOf es).Spells v ↔ ∃ e ∈ es, e.Spells v := by
  cases es with
  | nil => exact absurd rfl hne
  | cons e rest =>
    rw [anyOf, joined]
    clear hne
    induction rest generalizing e with
    | nil => simp
    | cons f rest ih =>
      rw [List.foldl_cons, ih]
      simp only [List.mem_cons, exists_eq_or_imp, Spells, or_assoc]

/-- A rule with its terminator spells a word that ends with a terminator if it is its own, and the
rule spells the rest. -/
theorem spells_rule_iff {e : Expr Unit} {m n : Symbol} {v : List (Unit × Leaf)} :
    (concat () e (leaf () (.terminator m))).Spells (v ++ [((), .terminator n)]) ↔
      m = n ∧ e.Spells v := by
  constructor
  · intro h
    obtain ⟨u, w, huw, hu, hw⟩ := h
    simp only [Spells, reduceCtorEq, if_false] at hw
    -- The terminator is the last leaf of the word, so the split is just before it.
    subst hw
    obtain ⟨rfl, hmn⟩ := List.append_inj' huw rfl
    simp only [List.cons.injEq, Prod.mk.injEq, Leaf.terminator.injEq, true_and, and_true] at hmn
    exact ⟨hmn.symm, hu⟩
  · intro h
    obtain ⟨rfl, hv⟩ := h
    exact ⟨v, _, rfl, hv, by simp [Spells]⟩

end Expr

end PositionAutomata
