import PositionAutomata.Proofs.Expr.Local

/-
  Expressions with their counted repetitions written out.

  `Expr.unrolled` is the shape of what `Expr.expand` adds to a tree. It matches
  what the expression matches, as long as no repetition has a minimum above its
  maximum (`matches_unrolled`), it counts nothing any more (`unrolled_unrolled`),
  and its leaves are leaves of the expression or empty (`AllLeaves.unrolled`).
-/

namespace PositionAutomata

namespace Expr

variable {α : Type}

/-- Parts joined from the left; no part gives the empty leaf. -/
def joined (join : Expr Unit → Expr Unit → Expr Unit) : List (Expr Unit) → Expr Unit
  | [] => leaf () .empty
  | e :: rest => rest.foldl join e

/-- The parts one after the other. -/
def concatAll (es : List (Expr Unit)) : Expr Unit := joined (concat ()) es

/-- Any of the parts. -/
def anyOf (es : List (Expr Unit)) : Expr Unit := joined (alternation ()) es

/-- A counted repetition of an expression, written out. -/
def unrolling (q : Quantifier) (e : Expr Unit) : Expr Unit :=
  if q.isUnbounded then
    concatAll (List.replicate (q.required - 1) e ++
      [repetition () ⟨1, Quantifier.unbounded, q.lazy⟩ e])
  else if q.min = q.max then concatAll (List.replicate q.required e)
  else if q.lazy then
    concatAll (List.replicate q.required e ++
      List.replicate (q.max.toNat - q.required) (repetition () ⟨0, 1, true⟩ e))
  else anyOf ((List.range' q.required q.choices).map fun n => concatAll (List.replicate n e))

/-- The shape of an expression in which counted repetitions are written out. -/
def unrolled : Expr α → Expr Unit
  | leaf _ l => leaf () l
  | concat _ l r => concat () l.unrolled r.unrolled
  | alternation _ l r => alternation () l.unrolled r.unrolled
  | repetition _ q e =>
    if q.isCounted && !e.isEmptyLeaf then unrolling q e.unrolled else repetition () q e.unrolled
  | capture _ g e => capture () g e.unrolled

theorem unrolled_repetition (a : α) (q : Quantifier) (e : Expr α) :
    (repetition a q e).unrolled =
      if q.isCounted && !e.isEmptyLeaf then unrolling q e.unrolled
      else repetition () q e.unrolled := rfl

/-- The parts match one after the other. -/
def InTurn (text : List Char) : List (Expr Unit) → Nat → Nat → Prop
  | [], i, j => i = j
  | e :: rest, i, j => ∃ k, e.Matches text i k ∧ InTurn text rest k j

/-! ## Joined parts -/

theorem joined_induction {motive : Expr Unit → Prop} {join : Expr Unit → Expr Unit → Expr Unit}
    {es : List (Expr Unit)} (empty : es = [] → motive (leaf () .empty))
    (step : ∀ e f, motive e → motive f → motive (join e f)) (h : ∀ e ∈ es, motive e) :
    motive (joined join es) := by
  cases es with
  | nil => exact empty rfl
  | cons e rest =>
    obtain ⟨he, hrest⟩ := List.forall_mem_cons.mp h
    clear h empty
    rw [joined]
    induction rest generalizing e with
    | nil => exact he
    | cons f rest ih =>
      obtain ⟨hf, hrest⟩ := List.forall_mem_cons.mp hrest
      exact ih (join e f) (step e f he hf) hrest

variable {text : List Char} {i j : Nat}

theorem matches_empty {a : α} : (leaf a .empty).Matches text i j ↔ i = j := by
  constructor
  · intro h
    rcases h with ⟨_, h⟩ | h
    · exact h
    · cases h <;> exact absurd ‹_ ∈ _› (by simp [Leaf.ranges])
  · exact fun h => .inl ⟨rfl, h⟩

theorem matches_concatAll {es : List (Expr Unit)} :
    (concatAll es).Matches text i j ↔ InTurn text es i j := by
  cases es with
  | nil => exact matches_empty
  | cons e rest =>
    rw [concatAll, joined, InTurn]
    induction rest generalizing e i with
    | nil => simp [InTurn]
    | cons f rest ih =>
      rw [List.foldl_cons, ih]
      simp only [Matches, InTurn]
      exact exists_chain_iff.symm

theorem matches_anyOf {es : List (Expr Unit)} (hne : es ≠ []) :
    (anyOf es).Matches text i j ↔ ∃ e ∈ es, e.Matches text i j := by
  cases es with
  | nil => exact absurd rfl hne
  | cons e rest =>
    rw [anyOf, joined]
    clear hne
    induction rest generalizing e with
    | nil => simp
    | cons f rest ih =>
      rw [List.foldl_cons, ih]
      simp only [List.mem_cons, exists_eq_or_imp, Matches, or_assoc]

theorem inTurn_append {es fs : List (Expr Unit)} :
    InTurn text (es ++ fs) i j ↔ ∃ k, InTurn text es i k ∧ InTurn text fs k j := by
  induction es generalizing i with
  | nil => simp [InTurn]
  | cons e es ih =>
    simp only [List.cons_append, InTurn, ih]
    exact exists_chain_iff

theorem inTurn_replicate {n : Nat} {e : Expr Unit} :
    InTurn text (List.replicate n e) i j ↔ Iterated (e.Matches text) n i j := by
  induction n generalizing i with
  | zero => exact Iff.rfl
  | succ n ih =>
    simp only [List.replicate_succ, InTurn, Iterated, ih]

theorem matches_optional {lz : Bool} {e : Expr Unit} :
    (repetition () ⟨0, 1, lz⟩ e).Matches text i j ↔ i = j ∨ e.Matches text i j := by
  constructor
  · intro h
    obtain ⟨n, ⟨_, hmax⟩, h⟩ := h
    have hn : n ≤ 1 := by
      have := hmax rfl
      simp only at this
      omega
    rcases Nat.le_one_iff_eq_zero_or_eq_one.mp hn with rfl | rfl
    · exact .inl h
    · exact .inr (Iterated.one.mp h)
  · intro h
    rcases h with h | h
    · exact ⟨0, Quantifier.allows_zero rfl, h⟩
    · exact ⟨1, Quantifier.allows_one rfl rfl, Iterated.one.mpr h⟩

theorem inTurn_optional {m : Nat} {lz : Bool} {e : Expr Unit} :
    InTurn text (List.replicate m (repetition () ⟨0, 1, lz⟩ e)) i j ↔
      ∃ n ≤ m, Iterated (e.Matches text) n i j := by
  induction m generalizing i with
  | zero => simp [InTurn, Iterated]
  | succ m ih =>
    simp only [List.replicate_succ, InTurn, matches_optional, ih]
    constructor
    · intro h
      obtain ⟨k, rfl | hk, n, hn, h⟩ := h
      · exact ⟨n, Nat.le_succ_of_le hn, h⟩
      · exact ⟨n + 1, Nat.succ_le_succ hn, k, hk, h⟩
    · intro h
      obtain ⟨n, hn, h⟩ := h
      cases n with
      | zero => exact ⟨i, .inl rfl, 0, Nat.zero_le m, h⟩
      | succ n =>
        obtain ⟨k, hk, h⟩ := h
        exact ⟨k, .inr hk, n, Nat.le_of_succ_le_succ hn, h⟩

/-! ## Counted repetitions -/

theorem matches_atLeastOne {lz : Bool} {e : Expr Unit} :
    (repetition () ⟨1, Quantifier.unbounded, lz⟩ e).Matches text i j ↔
      ∃ n, 0 < n ∧ Iterated (e.Matches text) n i j := by
  constructor
  · intro h
    obtain ⟨n, ⟨hn, _⟩, h⟩ := h
    exact ⟨n, hn, h⟩
  · intro h
    obtain ⟨n, hn, h⟩ := h
    refine ⟨n, ⟨hn, fun hu => absurd hu ?_⟩, h⟩
    simp [Quantifier.isUnbounded, Quantifier.unbounded]

theorem matches_copies {m : Nat} {e : Expr Unit} :
    (concatAll (List.replicate m e)).Matches text i j ↔ Iterated (e.Matches text) m i j := by
  rw [matches_concatAll, inTurn_replicate]

/-- Copies, and one or more iterations after them. -/
theorem matches_copies_atLeastOne {m : Nat} {lz : Bool} {e : Expr Unit} :
    (concatAll (List.replicate m e ++
        [repetition () ⟨1, Quantifier.unbounded, lz⟩ e])).Matches text i j ↔
      ∃ n, m < n ∧ Iterated (e.Matches text) n i j := by
  simp only [matches_concatAll, inTurn_append, inTurn_replicate, InTurn, exists_eq_right,
    matches_atLeastOne]
  constructor
  · intro h
    obtain ⟨k, hk, n, hn, h⟩ := h
    exact ⟨m + n, by omega, Iterated.add.mpr ⟨k, hk, h⟩⟩
  · intro h
    obtain ⟨n, hn, h⟩ := h
    rw [show n = m + (n - m) by omega, Iterated.add] at h
    obtain ⟨k, hk, h⟩ := h
    exact ⟨k, hk, n - m, by omega, h⟩

/-- Copies, and some more that can be left out. -/
theorem matches_copies_optional {m r : Nat} {lz : Bool} {e : Expr Unit} :
    (concatAll (List.replicate m e ++
        List.replicate r (repetition () ⟨0, 1, lz⟩ e))).Matches text i j ↔
      ∃ n, m ≤ n ∧ n ≤ m + r ∧ Iterated (e.Matches text) n i j := by
  simp only [matches_concatAll, inTurn_append, inTurn_optional]
  simp only [inTurn_replicate]
  constructor
  · intro h
    obtain ⟨k, hk, n, hn, h⟩ := h
    exact ⟨m + n, by omega, by omega, Iterated.add.mpr ⟨k, hk, h⟩⟩
  · intro h
    obtain ⟨n, hmn, hn, h⟩ := h
    rw [show n = m + (n - m) by omega, Iterated.add] at h
    obtain ⟨k, hk, h⟩ := h
    exact ⟨k, hk, n - m, by omega, h⟩

/-- A choice between numbers of copies. -/
theorem matches_choice_of_copies {m r : Nat} (hr : 0 < r) {e : Expr Unit} :
    (anyOf ((List.range' m r).map fun n => concatAll (List.replicate n e))).Matches text i j ↔
      ∃ n, m ≤ n ∧ n < m + r ∧ Iterated (e.Matches text) n i j := by
  have hne : ((List.range' m r).map fun n => concatAll (List.replicate n e)) ≠ [] := by
    intro h
    have hlen := congrArg List.length h
    simp only [List.length_map, List.length_range', List.length_nil] at hlen
    omega
  simp only [matches_anyOf hne, List.mem_map, List.mem_range'_1]
  constructor
  · intro h
    obtain ⟨f, ⟨n, hn, rfl⟩, h⟩ := h
    exact ⟨n, hn.1, hn.2, matches_copies.mp h⟩
  · intro h
    obtain ⟨n, hmn, hn, h⟩ := h
    exact ⟨_, ⟨n, ⟨hmn, hn⟩, rfl⟩, matches_copies.mpr h⟩

/-- Written out, a counted repetition still matches every allowed number of iterations. -/
theorem matches_unrolling {q : Quantifier} (hv : q.isValid = true) (hc : q.isCounted = true)
    {e : Expr Unit} : (unrolling q e).Matches text i j ↔
      ∃ n, q.Allows n ∧ Iterated (e.Matches text) n i j := by
  rw [unrolling]
  by_cases hu : q.isUnbounded = true
  · have hmin : 1 < q.min := by simpa [Quantifier.isCounted, hu] using hc
    -- All copies but the last are required, and the last one repeats.
    have hallows : ∀ n : Nat, q.Allows n ↔ q.required - 1 < n := by
      intro n
      simp only [Quantifier.Allows, Quantifier.required, hu, Bool.true_eq_false, false_implies,
        and_true]
      omega
    rw [if_pos hu, matches_copies_atLeastOne]
    simp only [hallows]
  · have hu : q.isUnbounded = false := by simpa using hu
    have hmax : 1 < q.max := by simpa [Quantifier.isCounted, hu] using hc
    have hle : q.min ≤ q.max := by simpa [Quantifier.isValid, hu] using hv
    have hreq : (q.required : Int) = max q.min 0 := by
      rw [Quantifier.required]
      omega
    have hallows : ∀ n : Nat, q.Allows n ↔ q.required ≤ n ∧ (n : Int) ≤ q.max := by
      intro n
      simp [Quantifier.Allows, hu]
    simp only [hu, Bool.false_eq_true, if_false, hallows]
    split
    next heq =>
      -- The minimum is the maximum, so one number of copies is allowed.
      have hone : ∀ n : Nat, (q.required ≤ n ∧ (n : Int) ≤ q.max) ↔ n = q.required := by
        intro n
        omega
      simp only [hone, exists_eq_left, matches_copies]
    split
    next =>
      have hrange : ∀ n : Nat, (q.required ≤ n ∧ (n : Int) ≤ q.max) ↔
          q.required ≤ n ∧ n ≤ q.required + (q.max.toNat - q.required) := by
        intro n
        omega
      simp only [hrange, matches_copies_optional, and_assoc]
    next =>
      have hchoices : q.choices = q.max.toNat + 1 - q.required := rfl
      have hrange : ∀ n : Nat, (q.required ≤ n ∧ (n : Int) ≤ q.max) ↔
          q.required ≤ n ∧ n < q.required + q.choices := by
        intro n
        omega
      have hpos : 0 < q.choices := by omega
      simp only [hrange, matches_choice_of_copies hpos, and_assoc]

/-- Writing out counted repetitions does not change what is matched. -/
theorem matches_unrolled {e : Expr α} (hv : e.Valid) :
    e.unrolled.Matches text i j ↔ e.Matches text i j := by
  have h : e.unrolled.Matches text = e.Matches text := by
    induction e with
    | leaf a l => rfl
    | concat a l r ihl ihr =>
      funext i j
      show (∃ k, l.unrolled.Matches text i k ∧ r.unrolled.Matches text k j) = _
      rw [ihl hv.1, ihr hv.2]
      rfl
    | alternation a l r ihl ihr =>
      funext i j
      show (l.unrolled.Matches text i j ∨ r.unrolled.Matches text i j) = _
      rw [ihl hv.1, ihr hv.2]
      rfl
    | repetition a q e ih =>
      funext i j
      rw [unrolled_repetition]
      split
      next hc =>
        rw [Bool.and_eq_true] at hc
        rw [matches_unrolling hv.1 hc.1, ih hv.2]
        rfl
      next =>
        show (∃ n, q.Allows n ∧ Iterated (e.unrolled.Matches text) n i j) = _
        rw [ih hv.2]
        rfl
    | capture a g e ih => exact ih hv
  rw [h]

/-! ## What stays -/

theorem unrolling_induction {motive : Expr Unit → Prop} {q : Quantifier} {e : Expr Unit}
    (empty : motive (leaf () .empty))
    (concat : ∀ e f, motive e → motive f → motive (concat () e f))
    (alternation : ∀ e f, motive e → motive f → motive (alternation () e f))
    (repeated : motive (repetition () ⟨1, Quantifier.unbounded, q.lazy⟩ e))
    (optional : q.lazy = true → motive (repetition () ⟨0, 1, true⟩ e)) (he : motive e) :
    motive (unrolling q e) := by
  have copies : ∀ n, ∀ f ∈ List.replicate n e, motive f := fun n f hf => by
    rw [List.eq_of_mem_replicate hf]
    exact he
  rw [unrolling]
  split
  · apply joined_induction (fun _ => empty) concat
    intro f hf
    rcases List.mem_append.mp hf with hf | hf
    · exact copies _ f hf
    · rw [List.mem_singleton.mp hf]
      exact repeated
  split
  · exact joined_induction (fun _ => empty) concat (copies _)
  split
  next hl =>
    apply joined_induction (fun _ => empty) concat
    intro f hf
    rcases List.mem_append.mp hf with hf | hf
    · exact copies _ f hf
    · rw [List.eq_of_mem_replicate hf]
      exact optional hl
  next =>
    apply joined_induction (fun _ => empty) alternation
    intro f hf
    obtain ⟨n, _, rfl⟩ := List.mem_map.mp hf
    exact joined_induction (fun _ => empty) concat (copies n)

theorem AllLeaves.unrolled {p : Leaf → Prop} (hp : p .empty) {e : Expr α} (h : e.AllLeaves p) :
    e.unrolled.AllLeaves p := by
  induction e with
  | leaf a l => exact h
  | concat a l r ihl ihr => exact ⟨ihl h.1, ihr h.2⟩
  | alternation a l r ihl ihr => exact ⟨ihl h.1, ihr h.2⟩
  | repetition a q e ih =>
    rw [unrolled_repetition]
    split
    · exact unrolling_induction hp (fun _ _ he hf => ⟨he, hf⟩) (fun _ _ he hf => ⟨he, hf⟩) (ih h)
        (fun _ => ih h) (ih h)
    · exact ih h
  | capture a g e ih => exact ih h

theorem Greedy.unrolled {e : Expr α} (h : e.Greedy) : e.unrolled.Greedy := by
  induction e with
  | leaf a l => exact h
  | concat a l r ihl ihr => exact ⟨ihl h.1, ihr h.2⟩
  | alternation a l r ihl ihr => exact ⟨ihl h.1, ihr h.2⟩
  | repetition a q e ih =>
    obtain ⟨hq, he⟩ := h
    rw [unrolled_repetition]
    split
    · exact unrolling_induction trivial (fun _ _ he hf => ⟨he, hf⟩) (fun _ _ he hf => ⟨he, hf⟩)
        ⟨hq, ih he⟩ (fun hl => absurd hl (by simp [hq])) (ih he)
    · exact ⟨hq, ih he⟩
  | capture a g e ih => exact ih h

theorem isEmptyLeaf_unrolled {e : Expr α} (h : e.isEmptyLeaf = true) :
    e.unrolled.isEmptyLeaf = true := by
  obtain ⟨a, rfl⟩ := exists_of_isEmptyLeaf h
  rfl

theorem unrolled_unrolled {e : Expr α} (hv : e.Valid) : e.unrolled.Unrolled := by
  induction e with
  | leaf a l => exact hv
  | concat a l r ihl ihr => exact ⟨ihl hv.1, ihr hv.2⟩
  | alternation a l r ihl ihr => exact ⟨ihl hv.1, ihr hv.2⟩
  | repetition a q e ih =>
    obtain ⟨hq, he⟩ := hv
    rw [unrolled_repetition]
    split
    · exact unrolling_induction trivial (fun _ _ he hf => ⟨he, hf⟩) (fun _ _ he hf => ⟨he, hf⟩)
        ⟨rfl, .inl rfl, ih he⟩ (fun _ => ⟨rfl, .inl rfl, ih he⟩) (ih he)
    next hc =>
      refine ⟨hq, ?_, ih he⟩
      by_cases hcount : q.isCounted = true
      · exact .inr (isEmptyLeaf_unrolled (by simpa [hcount] using hc))
      · exact .inl (by simpa using hcount)
  | capture a g e ih => exact ih hv

/-- Where nothing is counted, nothing is written out. -/
theorem Unrolled.unrolled_eq {e : Expr α} (h : e.Unrolled) : e.unrolled = e.shape := by
  induction e with
  | leaf a l => rfl
  | concat a l r ihl ihr =>
    show concat () l.unrolled r.unrolled = _
    rw [ihl h.1, ihr h.2]
    rfl
  | alternation a l r ihl ihr =>
    show alternation () l.unrolled r.unrolled = _
    rw [ihl h.1, ihr h.2]
    rfl
  | repetition a q e ih =>
    obtain ⟨_, hc, he⟩ := h
    have hkeep : (q.isCounted && !e.isEmptyLeaf) = false := by
      rcases hc with hc | hc <;> simp [hc]
    rw [unrolled_repetition, hkeep, ih he]
    rfl
  | capture a g e ih => exact congrArg (capture () g) (ih h)

end Expr

end PositionAutomata
