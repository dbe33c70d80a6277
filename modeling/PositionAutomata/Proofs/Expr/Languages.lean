import Mathlib.Computability.Language
import PositionAutomata.Proofs.Expr.Unrolling

/-
  Languages of expressions without anchors.

  Without anchors each leaf of a word reads one character, so a text is matched
  exactly if some spelled word has leaves that hold its characters one by one
  (`language_eq_written`). The texts that are written so by words of two kinds
  joined are the product of two languages (`written_joined`), which makes the
  language of an expression a regular one, by its shape (`language_concat`,
  `mem_language_repetition`, `language_star`). An expression that writes out a text
  has that text alone in its language (`language_text`).
-/

namespace PositionAutomata

open Computability

variable {α β : Type}

/-- The leaves of a word hold the characters of a text, one each. -/
def Writes (u : List (α × Leaf)) (text : List Char) : Prop :=
  List.Forall₂ (fun x c => x.2.Contains c) u text

/-- The texts that the words of a kind are read by. -/
def written (p : List (α × Leaf) → Prop) : Language Char := {text | ∃ u, p u ∧ Writes u text}

theorem writes_nil {text : List Char} : Writes ([] : List (α × Leaf)) text ↔ text = [] :=
  List.forall₂_nil_left_iff

theorem writes_cons {x : α × Leaf} {u : List (α × Leaf)} {text : List Char} :
    Writes (x :: u) text ↔ ∃ c rest, x.2.Contains c ∧ Writes u rest ∧ text = c :: rest :=
  List.forall₂_cons_left_iff

theorem writes_append {u v : List (α × Leaf)} {text : List Char} :
    Writes (u ++ v) text ↔ ∃ s₁, Writes u s₁ ∧ ∃ s₂, Writes v s₂ ∧ s₁ ++ s₂ = text := by
  induction u generalizing text with
  | nil => simp [writes_nil]
  | cons x u ih =>
    simp only [List.cons_append, writes_cons, ih]
    constructor
    · intro h
      obtain ⟨c, _, hc, ⟨s₁, h₁, s₂, h₂, rfl⟩, rfl⟩ := h
      exact ⟨c :: s₁, ⟨c, s₁, hc, h₁, rfl⟩, s₂, h₂, rfl⟩
    · intro h
      obtain ⟨_, ⟨c, s₁, hc, h₁, rfl⟩, s₂, h₂, rfl⟩ := h
      exact ⟨c, s₁ ++ s₂, hc, ⟨s₁, h₁, s₂, h₂, rfl⟩, rfl⟩

/-- Words of one kind followed by words of another write the product of the languages. -/
theorem written_joined {p q : List (α × Leaf) → Prop} :
    written (fun u => ∃ v w, u = v ++ w ∧ p v ∧ q w) = written p * written q := by
  ext text
  rw [Language.mem_mul]
  constructor
  · intro h
    obtain ⟨_, ⟨v, w, rfl, hv, hw⟩, h⟩ := h
    obtain ⟨s₁, h₁, s₂, h₂, rfl⟩ := writes_append.mp h
    exact ⟨s₁, ⟨v, hv, h₁⟩, s₂, ⟨w, hw, h₂⟩, rfl⟩
  · intro h
    obtain ⟨s₁, ⟨v, hv, h₁⟩, s₂, ⟨w, hw, h₂⟩, rfl⟩ := h
    exact ⟨v ++ w, ⟨v, w, rfl, hv, hw⟩, writes_append.mpr ⟨s₁, h₁, s₂, h₂, rfl⟩⟩

theorem written_repeated {p : List (α × Leaf) → Prop} {n : Nat} :
    written (Repeated p n) = written p ^ n := by
  induction n with
  | zero =>
    ext text
    rw [pow_zero, Language.mem_one]
    constructor
    · intro h
      obtain ⟨_, rfl, h⟩ := h
      exact writes_nil.mp h
    · exact fun h => ⟨[], rfl, writes_nil.mpr h⟩
  | succ n ih => rw [pow_succ', ← ih, ← written_joined]; rfl

/-- What a word of leaves without anchors consumes is a part of the text that it writes. -/
theorem consumes_iff_writes {text : List Char} {u : List (α × Leaf)}
    (hu : ∀ x ∈ u, x.2.IsAnchorFree) {i j : Nat} :
    Consumes text u i j ↔ ∃ s, Writes u s ∧ s <+: text.drop i ∧ j = i + s.length := by
  induction u generalizing i with
  | nil => simp [Consumes, writes_nil, eq_comm]
  | cons x u ih =>
    obtain ⟨hx, hu⟩ := List.forall_mem_cons.mp hu
    simp only [Consumes, Leaf.reads_iff hx, ih hu, writes_cons]
    constructor
    · intro h
      obtain ⟨_, ⟨rfl, c, hc, hxc⟩, s, hs, hpre, rfl⟩ := h
      obtain ⟨hlt, rfl⟩ := List.getElem?_eq_some_iff.mp hc
      refine ⟨text[i] :: s, ⟨_, s, hxc, hs, rfl⟩, ?_, ?_⟩
      · rw [List.drop_eq_getElem_cons hlt]
        exact List.cons_prefix_cons.mpr ⟨rfl, hpre⟩
      · rw [List.length_cons]
        omega
    · intro h
      obtain ⟨_, ⟨c, s, hxc, hs, rfl⟩, hpre, rfl⟩ := h
      have hlt : i < text.length := by
        have := hpre.length_le
        rw [List.length_cons, List.length_drop] at this
        omega
      rw [List.drop_eq_getElem_cons hlt, List.cons_prefix_cons] at hpre
      refine ⟨i + 1, ⟨rfl, c, ?_, hxc⟩, s, hs, hpre.2, ?_⟩
      · rw [List.getElem?_eq_getElem hlt, hpre.1]
      · rw [List.length_cons]
        omega

/-- From the start a word consumes a beginning of the text that it writes. -/
theorem consumes_zero_iff {text : List Char} {u : List (α × Leaf)}
    (hu : ∀ x ∈ u, x.2.IsAnchorFree) {i : Nat} (hi : i ≤ text.length) :
    Consumes text u 0 i ↔ Writes u (text.take i) := by
  rw [consumes_iff_writes hu, List.drop_zero]
  constructor
  · intro h
    obtain ⟨s, hs, hpre, hlen⟩ := h
    rw [Nat.zero_add] at hlen
    rwa [hlen, ← List.prefix_iff_eq_take.mp hpre]
  · intro h
    exact ⟨_, h, List.take_prefix i text, by rw [List.length_take_of_le hi, Nat.zero_add]⟩

namespace Expr

/-- The texts that the expression matches as a whole. -/
def language (e : Expr α) : Language Char := {text | e.Matches text 0 text.length}

variable {e l r : Expr α}

theorem anchorFree_of_spells (he : e.AllLeaves Leaf.IsAnchorFree) {u : List (α × Leaf)}
    (h : e.Spells u) : ∀ x ∈ u, x.2.IsAnchorFree :=
  fun x hx => allLeaves_iff.mp he x (mem_leaves_of_spells h hx)

theorem take_mem_language_iff (he : e.AllLeaves Leaf.IsAnchorFree) {text : List Char} {i : Nat}
    (hi : i ≤ text.length) : text.take i ∈ e.language ↔ e.Matches text 0 i := by
  have h : ∀ {s : List Char} {j : Nat}, j ≤ s.length →
      (e.Matches s 0 j ↔ ∃ u, e.Spells u ∧ Writes u (s.take j)) := fun hj => by
    rw [matches_iff_spells]
    exact exists_congr fun u => and_congr_right fun hu =>
      consumes_zero_iff (anchorFree_of_spells he hu) hj
  show e.Matches (text.take i) 0 (text.take i).length ↔ _
  rw [h (Nat.le_refl _), h hi, List.take_length]

/-- The language of an expression is what its words write. -/
theorem language_eq_written (he : e.AllLeaves Leaf.IsAnchorFree) :
    e.language = written e.Spells := by
  ext text
  show e.Matches text 0 text.length ↔ _
  rw [matches_iff_spells]
  refine exists_congr fun u => and_congr_right fun hu => ?_
  rw [consumes_zero_iff (anchorFree_of_spells he hu) (Nat.le_refl _), List.take_length]

/-! ## Parts of expressions -/

theorem language_of_shape {f : Expr β} (h : e.shape = f.shape) : e.language = f.language := by
  ext text
  exact matches_of_shape h

theorem language_concat {a : α} (hl : l.AllLeaves Leaf.IsAnchorFree)
    (hr : r.AllLeaves Leaf.IsAnchorFree) :
    (concat a l r).language = l.language * r.language := by
  rw [language_eq_written (e := concat a l r) ⟨hl, hr⟩, language_eq_written hl,
    language_eq_written hr, ← written_joined]
  rfl

theorem mem_language_repetition {a : α} {q : Quantifier} (he : e.AllLeaves Leaf.IsAnchorFree)
    {text : List Char} :
    text ∈ (repetition a q e).language ↔ ∃ n, q.Allows n ∧ text ∈ e.language ^ n := by
  rw [language_eq_written (e := repetition a q e) he, language_eq_written he]
  simp only [← written_repeated]
  constructor
  · intro h
    obtain ⟨u, ⟨n, hn, hu⟩, h⟩ := h
    exact ⟨n, hn, u, hu, h⟩
  · intro h
    obtain ⟨n, hn, u, hu, h⟩ := h
    exact ⟨u, ⟨n, hn, hu⟩, h⟩

/-- A repetition that allows all numbers of iterations has the star of the language. -/
theorem language_star {a : α} {q : Quantifier} (hq : ∀ n, q.Allows n)
    (he : e.AllLeaves Leaf.IsAnchorFree) : (repetition a q e).language = e.language∗ := by
  ext text
  rw [mem_language_repetition he, Language.kstar_eq_iSup_pow, Language.mem_iSup]
  exact exists_congr fun n => and_iff_right (hq n)

/-! ## Texts -/

/-- The characters of a text, one after the other. -/
def text (cs : List Char) : Expr Unit := concatAll (cs.map fun c => leaf () (.codepoint c.toNat))

theorem language_empty {a : α} : (leaf a .empty).language = 1 := by
  ext text
  show (leaf a .empty).Matches text 0 text.length ↔ _
  rw [matches_empty, Language.mem_one, eq_comm, List.length_eq_zero_iff]

theorem isAnchorFree_codepoint (c : Char) : (Leaf.codepoint c.toNat).IsAnchorFree := by
  intro r hr
  have hc := le_maxCodepoint_of_char c
  rw [maxCodepoint] at hc
  rw [List.mem_singleton.mp hr]
  simp only [← Bool.not_eq_true, Range.contains_single, lineStart, textEnd]
  omega

theorem language_codepoint {a : α} (c : Char) :
    (leaf a (.codepoint c.toNat)).language = {[c]} := by
  ext text
  rw [language_eq_written (e := leaf a _) (isAnchorFree_codepoint c)]
  constructor
  · intro h
    obtain ⟨_, rfl, h⟩ := h
    obtain ⟨d, _, ⟨r, hr, hd⟩, hrest, rfl⟩ := writes_cons.mp h
    rw [List.mem_singleton.mp hr, Range.contains_single] at hd
    rw [writes_nil.mp hrest, Char.toNat_inj.mp hd]
    rfl
  · intro h
    rw [show text = [c] from h]
    refine ⟨[(a, .codepoint c.toNat)], by simp [Spells], writes_cons.mpr ⟨c, [], ?_, ?_, rfl⟩⟩
    · exact ⟨_, List.mem_singleton.mpr rfl, Range.contains_single.mpr rfl⟩
    · exact writes_nil.mpr rfl

theorem language_concatAll {es : List (Expr Unit)}
    (h : ∀ e ∈ es, e.AllLeaves Leaf.IsAnchorFree) :
    (concatAll es).language = (es.map language).prod := by
  cases es with
  | nil => exact language_empty
  | cons e rest =>
    rw [concatAll, joined, List.map_cons, List.prod_cons]
    induction rest generalizing e with
    | nil => simp
    | cons f rest ih =>
      obtain ⟨he, hf, hrest⟩ : _ ∧ _ ∧ _ := by simpa using h
      rw [List.foldl_cons, ih (concat () e f) (List.forall_mem_cons.mpr ⟨⟨he, hf⟩, hrest⟩),
        language_concat he hf, List.map_cons, List.prod_cons, mul_assoc]

theorem language_text (cs : List Char) : (text cs).language = {cs} := by
  have hfree : ∀ e ∈ cs.map fun c => leaf () (.codepoint c.toNat),
      e.AllLeaves Leaf.IsAnchorFree := by
    intro e he
    obtain ⟨c, _, rfl⟩ := List.mem_map.mp he
    exact isAnchorFree_codepoint c
  rw [text, language_concatAll hfree, List.map_map]
  induction cs with
  | nil => rfl
  | cons c cs ih =>
    have hcs := fun e he => hfree e (List.mem_cons_of_mem _ he)
    rw [List.map_cons, List.prod_cons, ih hcs, Function.comp_apply, language_codepoint]
    exact Set.image2_singleton

end Expr

end PositionAutomata
