import PositionAutomata.Proofs.Expr.Matches

/-
  Words of leaves.

  An expression spells words: the leaves that a match goes through, the empty
  one apart. It matches a text exactly if it spells a word whose leaves read the
  text one after the other (`matches_iff_spells`). How words begin, end and go
  on follows the shape of the expression: `Nullable`, `First`, `Last` and
  `Follows` say which leaves may stand where, and every spelled word keeps to
  them (`nullable_of_spells`, `first_of_spells`, `last_of_spells`,
  `follows_of_spells`).
-/

namespace PositionAutomata

/-- Some number of words of a kind, one after the other. -/
def Repeated {β : Type} (l : List β → Prop) : Nat → List β → Prop
  | 0, u => u = []
  | n + 1, u => ∃ v w, u = v ++ w ∧ l v ∧ Repeated l n w

/-- The leaves of a word read the text from offset `i` to `j`, one after the other. -/
def Consumes {α : Type} (text : List Char) : List (α × Leaf) → Nat → Nat → Prop
  | [], i, j => i = j
  | x :: u, i, j => ∃ k, x.2.Reads text i k ∧ Consumes text u k j

variable {α : Type}

theorem consumes_append {text : List Char} {u v : List (α × Leaf)} {i j : Nat} :
    Consumes text (u ++ v) i j ↔ ∃ k, Consumes text u i k ∧ Consumes text v k j := by
  induction u generalizing i with
  | nil => simp [Consumes]
  | cons x u ih =>
    simp only [List.cons_append, Consumes, ih]
    exact exists_chain_iff

/-- What a word of one kind and a word of another read one after the other, they read joined. -/
theorem consumes_joined_iff {text : List Char} {p q : List (α × Leaf) → Prop} {i j : Nat} :
    (∃ k, (∃ v, p v ∧ Consumes text v i k) ∧ ∃ w, q w ∧ Consumes text w k j) ↔
      ∃ u, (∃ v w, u = v ++ w ∧ p v ∧ q w) ∧ Consumes text u i j := by
  constructor
  · intro h
    obtain ⟨k, ⟨v, hv, hik⟩, w, hw, hkj⟩ := h
    exact ⟨v ++ w, ⟨v, w, rfl, hv, hw⟩, consumes_append.mpr ⟨k, hik, hkj⟩⟩
  · intro h
    obtain ⟨u, ⟨v, w, rfl, hv, hw⟩, hc⟩ := h
    obtain ⟨k, hik, hkj⟩ := consumes_append.mp hc
    exact ⟨k, ⟨v, hv, hik⟩, w, hw, hkj⟩

namespace Expr

/-- The words that the expression spells. -/
def Spells : Expr α → List (α × Leaf) → Prop
  | leaf a l, u => u = if l = .empty then [] else [(a, l)]
  | concat _ l r, u => ∃ v w, u = v ++ w ∧ l.Spells v ∧ r.Spells w
  | alternation _ l r, u => l.Spells u ∨ r.Spells u
  | repetition _ q e, u => ∃ n, q.Allows n ∧ Repeated e.Spells n u
  | capture _ _ e, u => e.Spells u

theorem spells_leaf {a : α} {l : Leaf} {u : List (α × Leaf)} :
    (leaf a l).Spells u ↔ u = if l = .empty then [] else [(a, l)] := Iff.rfl

/-- The expression may spell the empty word. -/
def Nullable : Expr α → Prop
  | leaf _ l => l = .empty
  | concat _ l r => l.Nullable ∧ r.Nullable
  | alternation _ l r => l.Nullable ∨ r.Nullable
  | repetition _ q e => q.canSkip = true ∨ e.Nullable
  | capture _ _ e => e.Nullable

/-- A leaf may begin a word. -/
def First : Expr α → α × Leaf → Prop
  | leaf a l, x => l ≠ .empty ∧ x = (a, l)
  | concat _ l r, x => l.First x ∨ (l.Nullable ∧ r.First x)
  | alternation _ l r, x => l.First x ∨ r.First x
  | repetition _ _ e, x => e.First x
  | capture _ _ e, x => e.First x

/-- A leaf may end a word. -/
def Last : Expr α → α × Leaf → Prop
  | leaf a l, x => l ≠ .empty ∧ x = (a, l)
  | concat _ l r, x => r.Last x ∨ (r.Nullable ∧ l.Last x)
  | alternation _ l r, x => l.Last x ∨ r.Last x
  | repetition _ _ e, x => e.Last x
  | capture _ _ e, x => e.Last x

/-- A leaf may stand right after another in a word. -/
def Follows : Expr α → α × Leaf → α × Leaf → Prop
  | leaf _ _, _, _ => False
  | concat _ l r, x, y => l.Follows x y ∨ r.Follows x y ∨ (l.Last x ∧ r.First y)
  | alternation _ l r, x, y => l.Follows x y ∨ r.Follows x y
  | repetition _ q e, x, y => e.Follows x y ∨ (q.canRepeat = true ∧ e.Last x ∧ e.First y)
  | capture _ _ e, x, y => e.Follows x y

/-! ## Words and matches -/

theorem iterated_iff_repeated {text : List Char} {e : Expr α}
    (h : ∀ i j, e.Matches text i j ↔ ∃ u, e.Spells u ∧ Consumes text u i j) {n i j : Nat} :
    Iterated (e.Matches text) n i j ↔ ∃ u, Repeated e.Spells n u ∧ Consumes text u i j := by
  induction n generalizing i with
  | zero => exact ⟨fun h => ⟨[], rfl, h⟩, fun ⟨_, hu, h⟩ => by rwa [hu] at h⟩
  | succ n ih =>
    refine (exists_congr fun k => and_congr (h i k) ih).trans ?_
    exact consumes_joined_iff

/-- To match is to spell a word that the text can be read by. -/
theorem matches_iff_spells {text : List Char} {e : Expr α} {i j : Nat} :
    e.Matches text i j ↔ ∃ u, e.Spells u ∧ Consumes text u i j := by
  induction e generalizing i j with
  | leaf a l =>
    by_cases hl : l = .empty
    · subst hl
      have hread : ¬ Leaf.empty.Reads text i j := by
        intro h
        cases h <;> exact absurd ‹_ ∈ _› (by simp [Leaf.ranges])
      constructor
      · rintro (⟨_, h⟩ | h)
        · exact ⟨[], spells_leaf.mpr (if_pos rfl).symm, h⟩
        · exact absurd h hread
      · rintro ⟨u, hu, hc⟩
        rw [spells_leaf, if_pos rfl] at hu
        subst hu
        exact .inl ⟨rfl, hc⟩
    · constructor
      · rintro (⟨h, _⟩ | h)
        · exact absurd h hl
        · exact ⟨[(a, l)], spells_leaf.mpr (if_neg hl).symm, j, h, rfl⟩
      · rintro ⟨u, hu, hc⟩
        rw [spells_leaf, if_neg hl] at hu
        subst hu
        obtain ⟨k, hk, rfl⟩ := hc
        exact .inr hk
  | concat a l r ihl ihr =>
    refine (exists_congr fun _ => and_congr ihl ihr).trans ?_
    exact consumes_joined_iff
  | alternation a l r ihl ihr =>
    refine (or_congr ihl ihr).trans (exists_or.symm.trans ?_)
    exact exists_congr fun _ => or_and_right.symm
  | repetition a q e ih =>
    have hrepeated : ∀ n, Iterated (e.Matches text) n i j ↔
        ∃ u, Repeated e.Spells n u ∧ Consumes text u i j := fun n =>
      iterated_iff_repeated fun i j => ih
    refine (exists_congr fun n => and_congr_right fun _ => hrepeated n).trans ?_
    constructor
    · intro h
      obtain ⟨n, hn, u, hu, hc⟩ := h
      exact ⟨u, ⟨n, hn, hu⟩, hc⟩
    · intro h
      obtain ⟨u, ⟨n, hn, hu⟩, hc⟩ := h
      exact ⟨n, hn, u, hu, hc⟩
  | capture a g e ih => exact ih

/-! ## Leaves of words -/

theorem mem_leaves_of_first {e : Expr α} {x : α × Leaf} (h : e.First x) : x ∈ e.leaves := by
  induction e with
  | leaf a l => simp [h.2]
  | concat a l r ihl ihr =>
    rw [leaves_concat, List.mem_append]
    exact h.imp ihl fun h => ihr h.2
  | alternation a l r ihl ihr =>
    rw [leaves_alternation, List.mem_append]
    exact h.imp ihl ihr
  | repetition a q e ih => exact ih h
  | capture a g e ih => exact ih h

theorem mem_leaves_of_last {e : Expr α} {x : α × Leaf} (h : e.Last x) : x ∈ e.leaves := by
  induction e with
  | leaf a l => simp [h.2]
  | concat a l r ihl ihr =>
    rw [leaves_concat, List.mem_append]
    exact h.symm.imp (fun h => ihl h.2) ihr
  | alternation a l r ihl ihr =>
    rw [leaves_alternation, List.mem_append]
    exact h.imp ihl ihr
  | repetition a q e ih => exact ih h
  | capture a g e ih => exact ih h

theorem mem_leaves_of_follows {e : Expr α} {x y : α × Leaf} (h : e.Follows x y) :
    x ∈ e.leaves ∧ y ∈ e.leaves := by
  induction e with
  | leaf a l => exact h.elim
  | concat a l r ihl ihr =>
    simp only [leaves_concat, List.mem_append]
    rcases h with h | h | ⟨hx, hy⟩
    · exact ⟨.inl (ihl h).1, .inl (ihl h).2⟩
    · exact ⟨.inr (ihr h).1, .inr (ihr h).2⟩
    · exact ⟨.inl (mem_leaves_of_last hx), .inr (mem_leaves_of_first hy)⟩
  | alternation a l r ihl ihr =>
    simp only [leaves_alternation, List.mem_append]
    rcases h with h | h
    · exact ⟨.inl (ihl h).1, .inl (ihl h).2⟩
    · exact ⟨.inr (ihr h).1, .inr (ihr h).2⟩
  | repetition a q e ih =>
    rcases h with h | ⟨_, hx, hy⟩
    · exact ih h
    · exact ⟨mem_leaves_of_last hx, mem_leaves_of_first hy⟩
  | capture a g e ih => exact ih h

/-- An expression that cannot be empty begins with some leaf. -/
theorem exists_first {e : Expr α} (h : ¬ e.Nullable) : ∃ x, e.First x := by
  induction e with
  | leaf a l => exact ⟨(a, l), h, rfl⟩
  | concat a l r ihl ihr =>
    by_cases hl : l.Nullable
    · obtain ⟨x, hx⟩ := ihr fun hr => h ⟨hl, hr⟩
      exact ⟨x, .inr ⟨hl, hx⟩⟩
    · obtain ⟨x, hx⟩ := ihl hl
      exact ⟨x, .inl hx⟩
  | alternation a l r ihl _ =>
    obtain ⟨x, hx⟩ := ihl fun hl => h (.inl hl)
    exact ⟨x, .inl hx⟩
  | repetition a q e ih => exact ih fun he => h (.inr he)
  | capture a g e ih => exact ih h

theorem nullable_map {β : Type} {f : α → β} {e : Expr α} : (e.map f).Nullable ↔ e.Nullable := by
  induction e with
  | leaf a l => exact Iff.rfl
  | concat a l r ihl ihr => exact and_congr ihl ihr
  | alternation a l r ihl ihr => exact or_congr ihl ihr
  | repetition a q e ih => exact or_congr_right ih
  | capture a g e ih => exact ih

end Expr

/-! ## Parts of joined words -/

theorem cons_eq_append_cases {β : Type} {x : β} {u a b : List β} (h : x :: u = a ++ b) :
    (a = [] ∧ b = x :: u) ∨ ∃ w, a = x :: w := by
  cases a with
  | nil => exact .inl ⟨rfl, h.symm⟩
  | cons y a =>
    rw [List.cons_append, List.cons.injEq] at h
    exact .inr ⟨a, by rw [h.1]⟩

theorem concat_eq_append_cases {β : Type} {x : β} {u a b : List β} (h : u ++ [x] = a ++ b) :
    (b = [] ∧ a = u ++ [x]) ∨ ∃ w, b = w ++ [x] := by
  rcases List.eq_nil_or_concat b with rfl | ⟨w, y, rfl⟩
  · exact .inl ⟨rfl, by rw [h, List.append_nil]⟩
  · rw [List.concat_eq_append] at h ⊢
    rw [← List.append_assoc] at h
    obtain ⟨_, hy⟩ := List.append_inj' h rfl
    exact .inr ⟨w, by rw [hy]⟩

/-- Two neighbours stand in the first part, in the second, or where the parts meet. -/
theorem pair_eq_append_cases {β : Type} {x y : β} {u v a b : List β}
    (h : u ++ x :: y :: v = a ++ b) :
    (∃ w, a = u ++ x :: y :: w) ∨ (∃ w, b = w ++ x :: y :: v) ∨ (a = u ++ [x] ∧ b = y :: v) := by
  rcases List.append_eq_append_iff.mp h with ⟨w, rfl, hb⟩ | ⟨w, rfl, rfl⟩
  · rcases cons_eq_append_cases hb with ⟨rfl, rfl⟩ | ⟨w, rfl⟩
    · exact .inr (.inl ⟨[], rfl⟩)
    · rw [List.cons_append, List.cons.injEq] at hb
      rcases cons_eq_append_cases hb.2 with ⟨rfl, rfl⟩ | ⟨w, rfl⟩
      · exact .inr (.inr ⟨rfl, rfl⟩)
      · exact .inl ⟨w, rfl⟩
  · exact .inr (.inl ⟨w, rfl⟩)

variable {β : Type} {l : List β → Prop}

theorem Repeated.append {m n : Nat} {u w : List β} (hu : Repeated l m u) (hw : Repeated l n w) :
    Repeated l (m + n) (u ++ w) := by
  induction m generalizing u with
  | zero =>
    obtain rfl : u = [] := hu
    rwa [Nat.zero_add]
  | succ m ih =>
    obtain ⟨a, b, rfl, ha, hb⟩ := hu
    rw [Nat.succ_add, List.append_assoc]
    exact ⟨a, b ++ w, rfl, ha, ih hb⟩

theorem Repeated.nil {n : Nat} (h : Repeated l n []) : n = 0 ∨ l [] := by
  cases n with
  | zero => exact .inl rfl
  | succ n =>
    obtain ⟨v, w, hu, hv, _⟩ := h
    obtain ⟨rfl, _⟩ := List.append_eq_nil_iff.mp hu.symm
    exact .inr hv

theorem Repeated.first {x : β} {n : Nat} {u : List β} (h : Repeated l n (x :: u)) :
    0 < n ∧ ∃ w, l (x :: w) := by
  induction n with
  | zero => exact absurd h (by simp [Repeated])
  | succ n ih =>
    obtain ⟨v, w, hu, hv, hw⟩ := h
    refine ⟨Nat.succ_pos n, ?_⟩
    rcases cons_eq_append_cases hu with ⟨_, rfl⟩ | ⟨w, rfl⟩
    · exact (ih hw).2
    · exact ⟨w, hv⟩

theorem Repeated.last {x : β} {n : Nat} {u : List β} (h : Repeated l n (u ++ [x])) :
    0 < n ∧ ∃ w, l (w ++ [x]) := by
  induction n generalizing u with
  | zero => exact absurd h (by simp [Repeated])
  | succ n ih =>
    obtain ⟨v, w, hu, hv, hw⟩ := h
    refine ⟨Nat.succ_pos n, ?_⟩
    rcases concat_eq_append_cases hu with ⟨_, rfl⟩ | ⟨w, rfl⟩
    · exact ⟨u, hv⟩
    · exact (ih hw).2

/-- Two neighbours stand in one of the words, or the first ends one and the second begins a
later one. -/
theorem Repeated.pair {x y : β} {n : Nat} {u v : List β} (h : Repeated l n (u ++ x :: y :: v)) :
    (∃ u' v', l (u' ++ x :: y :: v')) ∨ (1 < n ∧ (∃ w, l (w ++ [x])) ∧ ∃ w, l (y :: w)) := by
  induction n generalizing u with
  | zero => exact absurd h (by simp [Repeated])
  | succ n ih =>
    obtain ⟨a, b, hu, ha, hb⟩ := h
    rcases pair_eq_append_cases hu with ⟨w, rfl⟩ | ⟨w, rfl⟩ | ⟨rfl, rfl⟩
    · exact .inl ⟨u, w, ha⟩
    · exact (ih hb).imp id fun h => ⟨Nat.lt_succ_of_lt h.1, h.2⟩
    · obtain ⟨hn, hw⟩ := Repeated.first hb
      exact .inr ⟨Nat.succ_lt_succ hn, ⟨u, ha⟩, hw⟩

/-! ## What spelled words keep to -/

theorem Quantifier.Allows.canSkip {q : Quantifier} (h : q.Allows 0) : q.canSkip = true := by
  have hr := h.1
  simp only [Quantifier.required, Quantifier.canSkip, decide_eq_true_eq] at hr ⊢
  omega

theorem Quantifier.Allows.canRepeat {q : Quantifier} {n : Nat} (h : q.Allows n) (hn : 1 < n) :
    q.canRepeat = true := by
  rw [Quantifier.canRepeat, Bool.or_eq_true]
  cases hq : q.isUnbounded with
  | true => exact .inl rfl
  | false =>
    have hmax := h.2 hq
    exact .inr (decide_eq_true (by omega))

namespace Expr

theorem nullable_of_spells {e : Expr α} (h : e.Spells []) : e.Nullable := by
  induction e with
  | leaf a l =>
    by_cases hl : l = .empty
    · exact hl
    · rw [spells_leaf, if_neg hl] at h
      cases h
  | concat a l r ihl ihr =>
    obtain ⟨v, w, hu, hv, hw⟩ := h
    obtain ⟨rfl, rfl⟩ := List.append_eq_nil_iff.mp hu.symm
    exact ⟨ihl hv, ihr hw⟩
  | alternation a l r ihl ihr => exact h.imp ihl ihr
  | repetition a q e ih =>
    obtain ⟨n, hn, hu⟩ := h
    rcases hu.nil with rfl | hu
    · exact .inl hn.canSkip
    · exact .inr (ih hu)
  | capture a g e ih => exact ih h

theorem first_of_spells {e : Expr α} {x : α × Leaf} {u : List (α × Leaf)}
    (h : e.Spells (x :: u)) : e.First x := by
  induction e generalizing u with
  | leaf a l =>
    by_cases hl : l = .empty
    · rw [spells_leaf, if_pos hl] at h
      cases h
    · rw [spells_leaf, if_neg hl, List.cons.injEq] at h
      exact ⟨hl, h.1⟩
  | concat a l r ihl ihr =>
    obtain ⟨v, w, hu, hv, hw⟩ := h
    rcases cons_eq_append_cases hu with ⟨rfl, rfl⟩ | ⟨w, rfl⟩
    · exact .inr ⟨nullable_of_spells hv, ihr hw⟩
    · exact .inl (ihl hv)
  | alternation a l r ihl ihr => exact h.imp ihl ihr
  | repetition a q e ih =>
    obtain ⟨n, _, hu⟩ := h
    obtain ⟨_, w, hw⟩ := hu.first
    exact ih hw
  | capture a g e ih => exact ih h

theorem last_of_spells {e : Expr α} {x : α × Leaf} {u : List (α × Leaf)}
    (h : e.Spells (u ++ [x])) : e.Last x := by
  induction e generalizing u with
  | leaf a l =>
    by_cases hl : l = .empty
    · rw [spells_leaf, if_pos hl] at h
      exact absurd h (by simp)
    · rw [spells_leaf, if_neg hl] at h
      obtain ⟨_, hx⟩ := List.append_inj' (h.trans (List.nil_append _).symm) rfl
      exact ⟨hl, List.singleton_inj.mp hx⟩
  | concat a l r ihl ihr =>
    obtain ⟨v, w, hu, hv, hw⟩ := h
    rcases concat_eq_append_cases hu with ⟨rfl, rfl⟩ | ⟨w, rfl⟩
    · exact .inr ⟨nullable_of_spells hw, ihl hv⟩
    · exact .inl (ihr hw)
  | alternation a l r ihl ihr => exact h.imp ihl ihr
  | repetition a q e ih =>
    obtain ⟨n, _, hu⟩ := h
    obtain ⟨_, w, hw⟩ := hu.last
    exact ih hw
  | capture a g e ih => exact ih h

theorem follows_of_spells {e : Expr α} {x y : α × Leaf} {u v : List (α × Leaf)}
    (h : e.Spells (u ++ x :: y :: v)) : e.Follows x y := by
  induction e generalizing u v with
  -- A leaf spells words of one letter at most.
  | leaf a l =>
    have hlen := congrArg List.length h
    by_cases hl : l = .empty <;> simp [hl] at hlen
    omega
  | concat a l r ihl ihr =>
    obtain ⟨a, b, hu, ha, hb⟩ := h
    rcases pair_eq_append_cases hu with ⟨w, rfl⟩ | ⟨w, rfl⟩ | ⟨rfl, rfl⟩
    · exact .inl (ihl ha)
    · exact .inr (.inl (ihr hb))
    · exact .inr (.inr ⟨last_of_spells ha, first_of_spells hb⟩)
  | alternation a l r ihl ihr => exact h.imp ihl ihr
  | repetition a q e ih =>
    obtain ⟨n, hn, hu⟩ := h
    rcases hu.pair with ⟨u', v', hw⟩ | ⟨hlt, ⟨v', hx⟩, w', hy⟩
    · exact .inl (ih hw)
    · exact .inr ⟨hn.canRepeat hlt, last_of_spells hx, first_of_spells hy⟩
  | capture a g e ih => exact ih h

theorem mem_leaves_of_spells {e : Expr α} {u : List (α × Leaf)} (h : e.Spells u) {x : α × Leaf}
    (hx : x ∈ u) : x ∈ e.leaves := by
  obtain ⟨v, w, rfl⟩ := List.append_of_mem hx
  cases w with
  | nil => exact mem_leaves_of_last (last_of_spells h)
  | cons y w => exact (mem_leaves_of_follows (follows_of_spells h)).1

end Expr

end PositionAutomata
