import PositionAutomata.Tree.Expr

/-
  What an expression matches.

  `Expr.Matches` says from which offset of a text to which an expression
  matches: a leaf reads one character of its ranges, or nothing at an anchor in
  them that holds; the empty leaf matches without reading; a repetition matches
  any number of iterations that its quantifier allows. The tags of an expression
  do not matter for this, its shape does (`matches_of_shape`), and where no leaf
  holds an anchor only the part of the text between the offsets does
  (`Matches.within`).
-/

namespace PositionAutomata

/-- A leaf reads a character of its ranges, or holds without reading at a line start or at the
end of the text. -/
inductive Leaf.Reads (text : List Char) (l : Leaf) : Nat → Nat → Prop where
  | char {i : Nat} {c : Char} {r : Range} : text[i]? = some c → r ∈ l.ranges →
      r.contains c.toNat = true → Reads text l i (i + 1)
  | lineStart {i : Nat} {r : Range} : i = 0 ∨ text[i - 1]? = some '\n' → r ∈ l.ranges →
      r.contains lineStart = true → Reads text l i i
  | textEnd {r : Range} : r ∈ l.ranges → r.contains textEnd = true →
      Reads text l text.length text.length

/-- A leaf matches by reading, and the empty leaf everywhere without reading. -/
def Leaf.Matches (text : List Char) (l : Leaf) (i j : Nat) : Prop :=
  (l = .empty ∧ i = j) ∨ l.Reads text i j

/-- No range of the leaf holds an anchor. -/
def Leaf.IsAnchorFree (l : Leaf) : Prop :=
  ∀ r ∈ l.ranges, r.contains lineStart = false ∧ r.contains textEnd = false

instance : DecidablePred Leaf.IsAnchorFree := fun l =>
  inferInstanceAs (Decidable (∀ r ∈ l.ranges, _))

/-- The numbers of iterations that a repetition may have. -/
def Quantifier.Allows (q : Quantifier) (n : Nat) : Prop :=
  q.required ≤ n ∧ (q.isUnbounded = false → (n : Int) ≤ q.max)

instance (q : Quantifier) : DecidablePred q.Allows := fun n =>
  inferInstanceAs (Decidable (q.required ≤ n ∧ (q.isUnbounded = false → (n : Int) ≤ q.max)))

/-- Some number of matches, one after the other. -/
def Iterated (m : Nat → Nat → Prop) : Nat → Nat → Nat → Prop
  | 0, i, j => i = j
  | n + 1, i, j => ∃ k, m i k ∧ Iterated m n k j

/-- One step and then two others are two steps and then a third. -/
theorem exists_chain_iff {p : Nat → Prop} {r : Nat → Nat → Prop} {s : Nat → Prop} :
    (∃ k, p k ∧ ∃ l, r k l ∧ s l) ↔ ∃ l, (∃ k, p k ∧ r k l) ∧ s l := by
  constructor
  · intro h
    obtain ⟨k, hk, l, hl, hs⟩ := h
    exact ⟨l, ⟨k, hk, hl⟩, hs⟩
  · intro h
    obtain ⟨l, ⟨k, hk, hl⟩, hs⟩ := h
    exact ⟨k, hk, l, hl, hs⟩

theorem Iterated.add {m : Nat → Nat → Prop} {a b i j : Nat} :
    Iterated m (a + b) i j ↔ ∃ k, Iterated m a i k ∧ Iterated m b k j := by
  induction a generalizing i with
  | zero => simp [Iterated]
  | succ a ih =>
    rw [Nat.succ_add, Iterated]
    simp only [ih, Iterated]
    exact exists_chain_iff

theorem Iterated.one {m : Nat → Nat → Prop} {i j : Nat} : Iterated m 1 i j ↔ m i j := by
  simp [Iterated]

theorem Iterated.shift {m m' : Nat → Nat → Prop} {d : Nat}
    (h : ∀ i j, m i j → m' (d + i) (d + j)) {n i j : Nat} (hm : Iterated m n i j) :
    Iterated m' n (d + i) (d + j) := by
  induction n generalizing i with
  | zero => exact congrArg (d + ·) hm
  | succ n ih =>
    obtain ⟨k, hk, hj⟩ := hm
    exact ⟨d + k, h i k hk, ih hj⟩

/-- A range of the leaf holds the character. -/
def Leaf.Contains (l : Leaf) (c : Char) : Prop := ∃ r ∈ l.ranges, r.contains c.toNat = true

/-- Without anchors a leaf reads one character. -/
theorem Leaf.reads_iff {text : List Char} {l : Leaf} (hl : l.IsAnchorFree) {i j : Nat} :
    l.Reads text i j ↔ j = i + 1 ∧ ∃ c, text[i]? = some c ∧ l.Contains c := by
  constructor
  · intro h
    cases h with
    | char hc hr hcr => exact ⟨rfl, _, hc, _, hr, hcr⟩
    | lineStart _ hr ha => exact absurd ha (by simp [(hl _ hr).1])
    | textEnd hr ha => exact absurd ha (by simp [(hl _ hr).2])
  · intro h
    obtain ⟨rfl, c, hc, r, hr, hcr⟩ := h
    exact .char hc hr hcr

/-- Without anchors a leaf reads in a part of a text what it reads in the whole. -/
theorem Leaf.Reads.within {text : List Char} {l : Leaf} (hl : l.IsAnchorFree) {i j : Nat}
    (h : l.Reads text i j) (before after : List Char) :
    l.Reads (before ++ text ++ after) (before.length + i) (before.length + j) := by
  obtain ⟨rfl, c, hc, hlc⟩ := (reads_iff hl).mp h
  obtain ⟨hlt, _⟩ := List.getElem?_eq_some_iff.mp hc
  refine (reads_iff hl).mpr ⟨rfl, c, ?_, hlc⟩
  rw [List.append_assoc, List.getElem?_append_right (Nat.le_add_right _ _),
    Nat.add_sub_cancel_left, List.getElem?_append_left hlt, hc]

namespace Expr

variable {α β : Type}

/-- The expression matches the text from offset `i` to `j`. -/
def Matches (text : List Char) : Expr α → Nat → Nat → Prop
  | leaf _ l, i, j => l.Matches text i j
  | concat _ l r, i, j => ∃ k, l.Matches text i k ∧ r.Matches text k j
  | alternation _ l r, i, j => l.Matches text i j ∨ r.Matches text i j
  | repetition _ q e, i, j => ∃ n, q.Allows n ∧ Iterated (e.Matches text) n i j
  | capture _ _ e, i, j => e.Matches text i j

/-- The expression without its tags. -/
def shape (e : Expr α) : Expr Unit := e.map fun _ => ()

/-- Every bounded repetition has a minimum up to its maximum. -/
def Valid : Expr α → Prop
  | leaf _ _ => True
  | concat _ l r => l.Valid ∧ r.Valid
  | alternation _ l r => l.Valid ∧ r.Valid
  | repetition _ q e => q.isValid = true ∧ e.Valid
  | capture _ _ e => e.Valid

/-- No repetition is lazy. -/
def Greedy : Expr α → Prop
  | leaf _ _ => True
  | concat _ l r => l.Greedy ∧ r.Greedy
  | alternation _ l r => l.Greedy ∧ r.Greedy
  | repetition _ q e => q.lazy = false ∧ e.Greedy
  | capture _ _ e => e.Greedy

/-- All leaves satisfy a property. -/
def AllLeaves (p : Leaf → Prop) : Expr α → Prop
  | leaf _ l => p l
  | concat _ l r => l.AllLeaves p ∧ r.AllLeaves p
  | alternation _ l r => l.AllLeaves p ∧ r.AllLeaves p
  | repetition _ _ e => e.AllLeaves p
  | capture _ _ e => e.AllLeaves p

instance decidableValid : (e : Expr α) → Decidable e.Valid
  | leaf _ _ => isTrue True.intro
  | concat _ l r => @instDecidableAnd _ _ l.decidableValid r.decidableValid
  | alternation _ l r => @instDecidableAnd _ _ l.decidableValid r.decidableValid
  | repetition _ q e => @instDecidableAnd (q.isValid = true) _ inferInstance e.decidableValid
  | capture _ _ e => e.decidableValid

instance decidableGreedy : (e : Expr α) → Decidable e.Greedy
  | leaf _ _ => isTrue True.intro
  | concat _ l r => @instDecidableAnd _ _ l.decidableGreedy r.decidableGreedy
  | alternation _ l r => @instDecidableAnd _ _ l.decidableGreedy r.decidableGreedy
  | repetition _ q e => @instDecidableAnd (q.lazy = false) _ inferInstance e.decidableGreedy
  | capture _ _ e => e.decidableGreedy

instance decidableAllLeaves (p : Leaf → Prop) [DecidablePred p] :
    (e : Expr α) → Decidable (e.AllLeaves p)
  | leaf _ l => inferInstanceAs (Decidable (p l))
  | concat _ l r => @instDecidableAnd _ _ (l.decidableAllLeaves p) (r.decidableAllLeaves p)
  | alternation _ l r => @instDecidableAnd _ _ (l.decidableAllLeaves p) (r.decidableAllLeaves p)
  | repetition _ _ e => e.decidableAllLeaves p
  | capture _ _ e => e.decidableAllLeaves p

/-! ## Tags -/

theorem isEmptyLeaf_map (f : α → β) (e : Expr α) : (e.map f).isEmptyLeaf = e.isEmptyLeaf := by
  cases e <;> rfl

theorem isAlternation_map (f : α → β) (e : Expr α) :
    (e.map f).isAlternation = e.isAlternation := by
  cases e <;> rfl

theorem matches_map {text : List Char} {f : α → β} {e : Expr α} {i j : Nat} :
    (e.map f).Matches text i j ↔ e.Matches text i j := by
  have h : (e.map f).Matches text = e.Matches text := by
    induction e with
    | leaf a l => rfl
    | concat a l r ihl ihr =>
      funext i j
      show (∃ k, (l.map f).Matches text i k ∧ (r.map f).Matches text k j) = _
      rw [ihl, ihr]
      rfl
    | alternation a l r ihl ihr =>
      funext i j
      show ((l.map f).Matches text i j ∨ (r.map f).Matches text i j) = _
      rw [ihl, ihr]
      rfl
    | repetition a q e ih =>
      funext i j
      show (∃ n, q.Allows n ∧ Iterated ((e.map f).Matches text) n i j) = _
      rw [ih]
      rfl
    | capture a g e ih => exact ih
  rw [h]

theorem matches_shape {text : List Char} {e : Expr α} {i j : Nat} :
    e.shape.Matches text i j ↔ e.Matches text i j :=
  matches_map

/-- Expressions of one shape match alike. -/
theorem matches_of_shape {text : List Char} {e : Expr α} {f : Expr β} (h : e.shape = f.shape)
    {i j : Nat} : e.Matches text i j ↔ f.Matches text i j := by
  rw [← matches_shape, h, matches_shape]

theorem valid_map {f : α → β} {e : Expr α} : (e.map f).Valid ↔ e.Valid := by
  induction e with
  | leaf a l => exact Iff.rfl
  | concat a l r ihl ihr => exact and_congr ihl ihr
  | alternation a l r ihl ihr => exact and_congr ihl ihr
  | repetition a q e ih => exact and_congr_right fun _ => ih
  | capture a g e ih => exact ih

theorem greedy_map {f : α → β} {e : Expr α} : (e.map f).Greedy ↔ e.Greedy := by
  induction e with
  | leaf a l => exact Iff.rfl
  | concat a l r ihl ihr => exact and_congr ihl ihr
  | alternation a l r ihl ihr => exact and_congr ihl ihr
  | repetition a q e ih => exact and_congr_right fun _ => ih
  | capture a g e ih => exact ih

theorem allLeaves_map {p : Leaf → Prop} {f : α → β} {e : Expr α} :
    (e.map f).AllLeaves p ↔ e.AllLeaves p := by
  induction e with
  | leaf a l => exact Iff.rfl
  | concat a l r ihl ihr => exact and_congr ihl ihr
  | alternation a l r ihl ihr => exact and_congr ihl ihr
  | repetition a q e ih => exact ih
  | capture a g e ih => exact ih

theorem valid_of_shape {e : Expr α} {f : Expr β} (h : e.shape = f.shape) (hf : f.Valid) :
    e.Valid := by
  rw [← valid_map, ← shape, ← h] at hf
  exact valid_map.mp hf

theorem greedy_of_shape {e : Expr α} {f : Expr β} (h : e.shape = f.shape) (hf : f.Greedy) :
    e.Greedy := by
  rw [← greedy_map, ← shape, ← h] at hf
  exact greedy_map.mp hf

theorem allLeaves_of_shape {p : Leaf → Prop} {e : Expr α} {f : Expr β} (h : e.shape = f.shape)
    (hf : f.AllLeaves p) : e.AllLeaves p := by
  rw [← allLeaves_map, ← shape, ← h] at hf
  exact allLeaves_map.mp hf

theorem AllLeaves.mono {p p' : Leaf → Prop} (h : ∀ l, p l → p' l) {e : Expr α}
    (he : e.AllLeaves p) : e.AllLeaves p' := by
  induction e with
  | leaf a l => exact h l he
  | concat a l r ihl ihr => exact ⟨ihl he.1, ihr he.2⟩
  | alternation a l r ihl ihr => exact ⟨ihl he.1, ihr he.2⟩
  | repetition a q e ih => exact ih he
  | capture a g e ih => exact ih he

theorem allLeaves_iff {p : Leaf → Prop} {e : Expr α} :
    e.AllLeaves p ↔ ∀ x ∈ e.leaves, p x.2 := by
  induction e with
  | leaf a l => simp [AllLeaves]
  | concat a l r ihl ihr =>
    rw [leaves_concat, List.forall_mem_append]
    exact and_congr ihl ihr
  | alternation a l r ihl ihr =>
    rw [leaves_alternation, List.forall_mem_append]
    exact and_congr ihl ihr
  | repetition a q e ih =>
    rw [leaves_repetition]
    exact ih
  | capture a g e ih =>
    rw [leaves_capture]
    exact ih

/-! ## Alternatives -/

/-- What an alternation is exactly if both sides are, an expression is exactly if its alternatives
are. -/
theorem forall_mem_alternatives {p : Expr α → Prop}
    (hp : ∀ a l r, p (alternation a l r) ↔ p l ∧ p r) {e : Expr α} :
    (∀ x ∈ e.alternatives, p x) ↔ p e := by
  induction e with
  | alternation a l r ihl ihr => rw [alternatives, List.forall_mem_append, ihl, ihr, hp]
  | _ => exact List.forall_mem_singleton

/-! ## Parts of a text -/

/-- Without anchors a part of a text is matched as it is matched alone. -/
theorem Matches.within {text : List Char} {e : Expr α} (he : e.AllLeaves Leaf.IsAnchorFree)
    {i j : Nat} (h : e.Matches text i j) (before after : List Char) :
    e.Matches (before ++ text ++ after) (before.length + i) (before.length + j) := by
  induction e generalizing i j with
  | leaf a l =>
    rcases h with ⟨rfl, rfl⟩ | h
    · exact .inl ⟨rfl, rfl⟩
    · exact .inr (h.within he before after)
  | concat a l r ihl ihr =>
    obtain ⟨k, hl, hr⟩ := h
    exact ⟨_, ihl he.1 hl, ihr he.2 hr⟩
  | alternation a l r ihl ihr => exact h.imp (ihl he.1) (ihr he.2)
  | repetition a q e ih =>
    obtain ⟨n, hn, h⟩ := h
    exact ⟨n, hn, h.shift fun i j => ih he⟩
  | capture a g e ih => exact ih he h

end Expr

end PositionAutomata
