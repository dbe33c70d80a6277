import Mathlib
import PositionAutomata.Proofs.Construction.Looping
import PositionAutomata.Proofs.Trimming

/-
  A lazy loop and then a text.

  Trimming stops a lazy loop where the text was found and the next character
  would lead to a place where the loop begins again. The automaton of the loop and
  the text then accepts what ends with the text after some words of the loop,
  unless it was cut at an earlier end (`exists_accepts_iff_of_lazyLoop`). If the
  words are single characters, every earlier end is cut, since the characters of
  the text itself are words then (`forall_mem_of_overlap`). A longer word may go
  on after the text was found: in its middle the loop does not begin again.
-/

namespace PositionAutomata

open Computability

/-- Any number of iterations, as few as possible. -/
def Quantifier.lazyStar : Quantifier := { star with lazy := true }

theorem Quantifier.allows_lazyStar (n : Nat) : lazyStar.Allows n :=
  ⟨Nat.zero_le n, fun h => absurd h (by decide)⟩

/-! ## The analysed loop -/

namespace Expr

variable {α : Type}

theorem shape_unit (e : Expr Unit) : e.shape = e := by
  induction e with
  | leaf a l => rfl
  | concat a l r ihl ihr => exact congrArg₂ (concat ()) ihl ihr
  | alternation a l r ihl ihr => exact congrArg₂ (alternation ()) ihl ihr
  | repetition a q e ih => exact congrArg (repetition () q) ih
  | capture a g e ih => exact congrArg (capture () g) ih

theorem exists_leaf_of_shape {e : Expr α} {k : Leaf} (h : e.shape = leaf () k) :
    ∃ a, e = leaf a k := by
  cases e with
  | leaf a l =>
    cases h
    exact ⟨a, rfl⟩
  | _ => exact absurd h (by simp [shape, map])

theorem exists_concat_of_shape {e : Expr α} {l r : Expr Unit} (h : e.shape = concat () l r) :
    ∃ a x y, e = concat a x y ∧ x.shape = l ∧ y.shape = r := by
  cases e with
  | concat a x y =>
    cases h
    exact ⟨a, x, y, rfl, rfl, rfl⟩
  | _ => exact absurd h (by simp [shape, map])

theorem exists_repetition_of_shape {e : Expr α} {q : Quantifier} {i : Expr Unit}
    (h : e.shape = repetition () q i) : ∃ a x, e = repetition a q x ∧ x.shape = i := by
  cases e with
  | repetition a q x =>
    cases h
    exact ⟨a, x, rfl, rfl⟩
  | _ => exact absurd h (by simp [shape, map])

end Expr

/-- No anchor, no terminator, and no repetition that is lazy or counted. -/
structure Expr.IsSimple {α : Type} (e : Expr α) : Prop where
  unrolled : e.Unrolled
  greedy : e.Greedy
  anchorFree : e.AllLeaves Leaf.IsAnchorFree
  plain : e.AllLeaves Leaf.IsPlain

theorem Expr.IsSimple.of_shape {α β : Type} {e : Expr α} {f : Expr β} (hf : f.IsSimple)
    (h : e.shape = f.shape) : e.IsSimple where
  unrolled := by
    have hu : f.shape.Unrolled := unrolled_map.mpr hf.unrolled
    rw [← h] at hu
    exact unrolled_map.mp hu
  greedy := greedy_of_shape h hf.greedy
  anchorFree := allLeaves_of_shape h hf.anchorFree
  plain := allLeaves_of_shape h hf.plain

/-- What is analysed of a loop and what comes after it is a loop, what comes after it and a
terminator. -/
theorem Config.Augments.exists_loop {u : Tree} {i j : NodeId} {q : Quantifier}
    {x f g : Expr NodeId} (h : Config.Augments {} (.concat i (.repetition j q x) f) u g)
    (hq : q.isCounted = false) (hx : x.Unrolled) (hf : f.Unrolled) :
    ∃ a b r k x' f', g = .concat a (.concat b (.repetition r q x') f') (.leaf k (.terminator 0)) ∧
      x'.shape = x.shape ∧ f'.shape = f.shape := by
  have hshape : g.shape =
      .concat () (.concat () (.repetition () q x.shape) f.shape) (.leaf () (.terminator 0)) := by
    rw [h.shape, ← hx.unrolled_eq, ← hf.unrolled_eq]
    show Expr.concat () (Expr.concat () (if q.isCounted && !x.isEmptyLeaf then _ else _) _) _ = _
    rw [hq]
    rfl
  obtain ⟨a, l, t, rfl, hl, ht⟩ := Expr.exists_concat_of_shape hshape
  obtain ⟨b, e, f', rfl, he, hf'⟩ := Expr.exists_concat_of_shape hl
  obtain ⟨r, x', rfl, hx'⟩ := Expr.exists_repetition_of_shape he
  obtain ⟨k, rfl⟩ := Expr.exists_leaf_of_shape ht
  exact ⟨a, b, r, k, x', f', rfl, hx', hf'⟩

/-- A text is cut where it is accepted so far and the next character leads to where the loop begins
again. -/
theorem Config.Augments.cut_lazyLoop_iff {u : Tree} {i j : NodeId} {x f g : Expr NodeId}
    (h : Config.Augments {} (.concat i (.repetition j .lazyStar x) f) u g) (hx : x.IsSimple)
    (hf : f.IsSimple) {text : List Char} {n : Nat} (hn : n < text.length) :
    (Analysis.ofExpr u g true true).Cut text n ↔
      (∃ y ∈ ({} : Config).rules (.concat i (.repetition j .lazyStar x) f), y.Matches text 0 n) ∧
        text.take (n + 1) ∈ x.language∗ * x.restarts := by
  obtain ⟨root, hroot⟩ := Analysis.exists_root_of_rootExpr h.root
  obtain ⟨a, b, r, k, x', f', hg, hx', hf'⟩ := h.exists_loop rfl hx.unrolled hf.unrolled
  have hxs : x'.IsSimple := hx.of_shape hx'
  have hfs : f'.IsSimple := hf.of_shape hf'
  have hloop : (Expr.repetition r .lazyStar x').Unrolled := ⟨rfl, .inl rfl, hxs.unrolled⟩
  have hu : g.Unrolled := hg ▸ ⟨⟨hloop, hfs.unrolled⟩, trivial⟩
  have hfree := h.analysis_anchorFree true true ⟨hx.anchorFree, hf.anchorFree⟩
  have hv : (Expr.concat i (.repetition j .lazyStar x) f).Valid :=
    ⟨⟨rfl, hx.unrolled.valid⟩, hf.unrolled.valid⟩
  have hlin := (Analysis.linear_loop hg h.nodup).2
  calc (Analysis.ofExpr u g true true).Cut text n
    _ ↔ _ ∧ ∃ w, (Expr.repetition r .lazyStar x').BeginsAgain w ∧ Consumes text w 0 (n + 1) :=
      Analysis.cut_loop_iff hg hroot h.nodup h.bounded hu rfl hxs.greedy hfs.greedy trivial hfree
    _ ↔ _ ∧ text.take (n + 1) ∈ (Expr.repetition r .lazyStar x').restarts := by
      rw [Expr.take_mem_restarts_iff hloop (Expr.Linear.left hlin) hxs.anchorFree hn]
    _ ↔ _ ∧ text.take (n + 1) ∈ x.language∗ * x.restarts := by
      rw [Expr.restarts_star Quantifier.allows_lazyStar, Expr.language_of_shape hx',
        Expr.restarts_of_shape hx']
    _ ↔ _ := by
      rw [Analysis.exists_awaits_symbol_iff h rfl hv ⟨hx.plain, hf.plain⟩]

namespace Expr

variable {α β : Type}

/-- No part is a repetition. -/
def LoopFree : Expr α → Prop
  | leaf _ _ => True
  | concat _ l r => l.LoopFree ∧ r.LoopFree
  | alternation _ l r => l.LoopFree ∧ r.LoopFree
  | repetition _ _ _ => False
  | capture _ _ e => e.LoopFree

instance decidableLoopFree : (e : Expr α) → Decidable e.LoopFree
  | leaf _ _ => isTrue True.intro
  | concat _ l r => @instDecidableAnd _ _ l.decidableLoopFree r.decidableLoopFree
  | alternation _ l r => @instDecidableAnd _ _ l.decidableLoopFree r.decidableLoopFree
  | repetition _ _ _ => isFalse id
  | capture _ _ e => e.decidableLoopFree

theorem LoopFree.unrolled {e : Expr α} (h : e.LoopFree) : e.Unrolled := by
  induction e with
  | leaf a l => trivial
  | concat a l r ihl ihr => exact ⟨ihl h.1, ihr h.2⟩
  | alternation a l r ihl ihr => exact ⟨ihl h.1, ihr h.2⟩
  | repetition a q e _ => exact h.elim
  | capture a g e ih => exact ih h

theorem LoopFree.greedy {e : Expr α} (h : e.LoopFree) : e.Greedy := by
  induction e with
  | leaf a l => trivial
  | concat a l r ihl ihr => exact ⟨ihl h.1, ihr h.2⟩
  | alternation a l r ihl ihr => exact ⟨ihl h.1, ihr h.2⟩
  | repetition a q e _ => exact h.elim
  | capture a g e ih => exact ih h

end Expr

namespace Automaton

variable {t : Tree} {i j : NodeId} {e x f : Expr NodeId}

/-- What the words of a lazy loop and then the rest match is accepted, unless the same holds of a
beginning after which the next character leads to where the loop begins again. -/
theorem exists_accepts_iff_of_lazyLoop (hroot : t.rootExpr = .ok e)
    (he : e = .concat i (.repetition j .lazyStar x) f) (hx : x.IsSimple) (hf : f.IsSimple) :
    ∃ d, ofTree t = .ok d ∧ ∀ text, d.accepts text = true ↔
      text ∈ x.language∗ * f.language ∧ ∀ n < text.length,
        text.take n ∈ x.language∗ * f.language →
          text.take (n + 1) ∉ x.language∗ * x.restarts := by
  have hv : e.Valid := he ▸ ⟨⟨rfl, hx.unrolled.valid⟩, hf.unrolled.valid⟩
  have hfree : e.AllLeaves Leaf.IsAnchorFree := he ▸ ⟨hx.anchorFree, hf.anchorFree⟩
  have hplain : e.AllLeaves Leaf.IsPlain := he ▸ ⟨hx.plain, hf.plain⟩
  have hlang : e.language = x.language∗ * f.language := by
    rw [he, Expr.language_concat (l := .repetition j _ x) hx.anchorFree hf.anchorFree,
      Expr.language_star Quantifier.allows_lazyStar hx.anchorFree]
  have hlexer : ({} : Config).lexer = true → e.isAlternation = true :=
    fun h => absurd h (by decide)
  obtain ⟨u, g, haug, h⟩ := Config.augments_of_valid hroot hv hlexer
  obtain ⟨a, d, d', hd⟩ := Config.exists_builtTwice hroot hv hfree hplain hlexer rfl
  obtain rfl : Analysis.ofExpr u g true true = a :=
    Except.ok.inj ((Config.analyze_eq haug h.root).symm.trans hd.analysis)
  -- The whole expression is the only rule.
  have hmatch : ∀ {text : List Char} {n : Nat}, n ≤ text.length →
      ((∃ y ∈ ({} : Config).rules e, y.Matches text 0 n) ↔
        text.take n ∈ x.language∗ * f.language) := fun hn => by
    rw [← hlang, Expr.take_mem_language_iff hfree hn]
    simp [Config.rules]
  have hcut : ∀ {text : List Char} {n : Nat}, n < text.length →
      ((Analysis.ofExpr u g true true).Cut text n ↔ text.take n ∈ x.language∗ * f.language ∧
        text.take (n + 1) ∈ x.language∗ * x.restarts) := by
    intro text n hn
    rw [he] at h
    rw [h.cut_lazyLoop_iff hx hf hn, ← he, hmatch (Nat.le_of_lt hn)]
  refine ⟨d, hd.trimmed, fun text => ?_⟩
  rw [hd.accepts_iff_uncut, hd.accepts_untrimmed_iff, hmatch (Nat.le_refl _), List.take_length]
  apply and_congr_right
  intro _
  constructor
  · exact fun h n hn hm hr => h rfl rfl n hn ((hcut hn).mpr ⟨hm, hr⟩)
  · exact fun h _ _ n hn hc => h n hn ((hcut hn).mp hc).1 ((hcut hn).mp hc).2

end Automaton

/-! ## Words of one character -/

theorem mem_kstar_of_letters {L : Language Char} {text : List Char} (h : ∀ c ∈ text, [c] ∈ L) :
    text ∈ L∗ := by
  refine ⟨text.map fun c => [c], (List.flatMap_singleton' text).symm, fun w hw => ?_⟩
  obtain ⟨c, hc, rfl⟩ := List.mem_map.mp hw
  exact h c hc

theorem letters_of_mem_kstar {L : Language Char} (hL : ∀ w ∈ L, w.length ≤ 1) {text : List Char}
    (h : text ∈ L∗) : ∀ c ∈ text, [c] ∈ L := by
  obtain ⟨words, rfl, hwords⟩ := h
  intro c hc
  obtain ⟨w, hw, hcw⟩ := List.mem_flatten.mp hc
  have hlen := hL w (hwords w hw)
  match w with
  | [d] =>
    rw [List.mem_singleton.mp hcw]
    exact hwords _ hw
  | _ :: _ :: _ => exact absurd hlen (by simp)

/-- If a text ends with a word and so does a shorter beginning of it, then what holds of all
characters before the word holds of those in it, which stood earlier in the text already. -/
theorem forall_mem_of_overlap {p : Char → Prop} {as bs word rest : List Char}
    (h : as ++ word = bs ++ word ++ rest) (hne : rest ≠ []) (has : ∀ c ∈ as, p c) :
    ∀ c ∈ as ++ word, p c := by
  have hlen : as.length = bs.length + rest.length := by
    have := congrArg List.length h
    simp only [List.length_append] at this
    omega
  have hpos : 0 < rest.length := List.length_pos_of_ne_nil hne
  have hget : ∀ (k : Nat) c, (as ++ word)[k]? = some c → p c := by
    intro k
    induction k using Nat.strongRecOn with
    | ind k ih =>
      intro c hc
      rcases Nat.lt_or_ge k as.length with hk | hk
      · rw [List.getElem?_append_left hk] at hc
        exact has c (List.mem_of_getElem? hc)
      -- The character stands at the same place of the word that ends the beginning.
      · apply ih (k - rest.length) (by omega)
        rw [List.getElem?_append_right hk] at hc
        obtain ⟨hlt, _⟩ := List.getElem?_eq_some_iff.mp hc
        rw [h, List.getElem?_append_left (by rw [List.length_append]; omega),
          List.getElem?_append_right (by omega), ← hc]
        congr 1
        omega
  intro c hc
  obtain ⟨k, hk⟩ := List.mem_iff_getElem?.mp hc
  exact hget k c hk

namespace Expr

theorem isSimple_text (cs : List Char) : (text cs).IsSimple := by
  refine joined_induction (fun _ => ⟨trivial, trivial, by decide, by decide⟩) ?_ ?_
  · exact fun e f he hf => ⟨⟨he.unrolled, hf.unrolled⟩, ⟨he.greedy, hf.greedy⟩,
      ⟨he.anchorFree, hf.anchorFree⟩, ⟨he.plain, hf.plain⟩⟩
  · intro e he
    obtain ⟨c, _, rfl⟩ := List.mem_map.mp he
    exact ⟨trivial, trivial, isAnchorFree_codepoint c, rfl⟩

/-- An expression that matches some characters may begin before they are read. -/
theorem nil_mem_restarts_of_mem {e : Expr NodeId} (hu : e.Unrolled)
    (he : e.AllLeaves Leaf.IsAnchorFree) {c : Char} {cs : List Char} (h : c :: cs ∈ e.language) :
    [] ∈ e.restarts := by
  rw [language_eq_written he] at h
  obtain ⟨u, hs, hw⟩ := h
  cases u with
  | nil => exact absurd (writes_nil.mp hw) (List.cons_ne_nil c cs)
  | cons x u => exact nil_mem_restarts hu (first_of_spells hs)

/-- If the words of an expression are single characters, then after a word that was found early the
next character leads to where the expression begins again. -/
theorem take_mem_restarts_of_letters {e : Expr NodeId} (hu : e.Unrolled)
    (he : e.AllLeaves Leaf.IsAnchorFree) (hone : ∀ w ∈ e.language, w.length ≤ 1)
    {word text : List Char} {n : Nat} (htext : text ∈ e.language∗ * {word}) (hn : n < text.length)
    (htake : text.take n ∈ e.language∗ * {word}) :
    text.take (n + 1) ∈ e.language∗ * e.restarts := by
  obtain ⟨as, has, _, rfl, hjoin⟩ := Language.mem_mul.mp htext
  obtain ⟨bs, _, _, rfl, hbegin⟩ := Language.mem_mul.mp htake
  have hletters : ∀ c ∈ text, [c] ∈ e.language := by
    have hsplit := hjoin.trans (List.take_append_drop n text).symm
    rw [← hbegin] at hsplit
    rw [← hjoin]
    have hne : text.drop n ≠ [] := fun h =>
      absurd (List.drop_eq_nil_iff.mp h) (Nat.not_le_of_lt hn)
    exact forall_mem_of_overlap hsplit hne (letters_of_mem_kstar hone has)
  have hfirst : [] ∈ e.restarts :=
    nil_mem_restarts_of_mem hu he (hletters text[n] (List.getElem_mem hn))
  have hread : text.take (n + 1) ∈ e.language∗ :=
    mem_kstar_of_letters fun c hc => hletters c (List.mem_of_mem_take hc)
  rw [← List.append_nil (text.take (n + 1))]
  exact Language.append_mem_mul hread hfirst

end Expr

namespace Automaton

/-- Words without repetitions, as few as possible, and then a text. What ends with the text after
some words is accepted, unless a beginning of it does so too and the next character leads to where
another word begins; if the words are single characters, unless a beginning of it does so. -/
theorem ofTree_lazyLoop_accepts_iff {t : Tree} {i j : NodeId} {x f : Expr NodeId}
    {word : List Char} (hroot : t.rootExpr = .ok (.concat i (.repetition j .lazyStar x) f))
    (hloop : x.LoopFree) (hanchor : x.AllLeaves Leaf.IsAnchorFree)
    (hplain : x.AllLeaves Leaf.IsPlain) (hword : f.shape = Expr.text word) :
    ∃ d, ofTree t = .ok d ∧
      (∀ text, d.accepts text = true ↔
        text ∈ x.language∗ * {word} ∧ ∀ n < text.length,
          text.take n ∈ x.language∗ * {word} → text.take (n + 1) ∉ x.language∗ * x.restarts) ∧
      ((∀ w ∈ x.language, w.length ≤ 1) → ∀ text, d.accepts text = true ↔
        text ∈ x.language∗ * {word} ∧
          ∀ n < text.length, text.take n ∉ x.language∗ * {word}) := by
  have hx : x.IsSimple := ⟨hloop.unrolled, hloop.greedy, hanchor, hplain⟩
  have hshape : f.shape = (Expr.text word).shape := hword.trans (Expr.shape_unit _).symm
  have hf : f.IsSimple := (Expr.isSimple_text word).of_shape hshape
  obtain ⟨d, hd, h⟩ := exists_accepts_iff_of_lazyLoop hroot rfl hx hf
  rw [Expr.language_of_shape hshape, Expr.language_text] at h
  refine ⟨d, hd, h, fun hone text => (h text).trans (and_congr_right fun htext => ?_)⟩
  apply forall_congr'
  intro n
  apply forall_congr'
  intro hn
  constructor
  · exact fun h hm => h hm (x.take_mem_restarts_of_letters hx.unrolled hanchor hone htext hn hm)
  · exact fun h hm => absurd hm h

/-- Words `abc`, as few as possible, and then `a`. -/
def lazyTriples : Tree where
  nodes := #[.leaf (.codepoint 0x61), .leaf (.codepoint 0x62), .leaf (.codepoint 0x63),
    .concat 0 1, .concat 3 2, .repetition 4 .lazyStar, .leaf (.codepoint 0x61), .concat 5 6]
  root := some 7

/-- The word of `lazyTriples`. -/
def triple : Expr NodeId :=
  .concat 4 (.concat 3 (.leaf 0 (.codepoint 0x61)) (.leaf 1 (.codepoint 0x62)))
    (.leaf 2 (.codepoint 0x63))

set_option maxRecDepth 2000 in
/-- The text `abca` is accepted, although `a` is found at its beginning already. -/
theorem lazyTriples_accepts_after_first_end :
    lazyTriples.rootExpr =
        .ok (.concat 7 (.repetition 5 .lazyStar triple) (.leaf 6 (.codepoint 0x61))) ∧
      triple.LoopFree ∧ triple.AllLeaves Leaf.IsAnchorFree ∧ triple.AllLeaves Leaf.IsPlain ∧
      (Expr.leaf 6 (.codepoint 0x61)).shape = Expr.text ['a'] ∧
      ['a', 'b', 'c', 'a'].take 1 ∈ triple.language∗ * {['a']} ∧
      (ofTree lazyTriples).map (·.accepts ['a', 'b', 'c', 'a']) = .ok true := by
  refine ⟨by rfl, by decide, by decide, by decide, by rfl, ?_, by cbv⟩
  exact Language.append_mem_mul (Language.nil_mem_kstar _) rfl

/-- Words `ab`, as few as possible, and then `a`. -/
def lazyPairs : Tree where
  nodes := #[.leaf (.codepoint 0x61), .leaf (.codepoint 0x62), .concat 0 1,
    .repetition 2 .lazyStar, .leaf (.codepoint 0x61), .concat 3 4]
  root := some 5

/-- The word of `lazyPairs`. -/
def pair : Expr NodeId := .concat 2 (.leaf 0 (.codepoint 0x61)) (.leaf 1 (.codepoint 0x62))

theorem lazyPairs_accepts_iff :
    lazyPairs.rootExpr =
        .ok (.concat 5 (.repetition 3 .lazyStar pair) (.leaf 4 (.codepoint 0x61))) ∧
      pair.LoopFree ∧ pair.AllLeaves Leaf.IsAnchorFree ∧ pair.AllLeaves Leaf.IsPlain ∧
      (Expr.leaf 4 (.codepoint 0x61)).shape = Expr.text ['a'] ∧
      ∃ d, ofTree lazyPairs = .ok d ∧
        (∀ text, d.accepts text = true ↔ text ∈ pair.language∗ * {['a']} ∧
          ∀ n < text.length, text.take n ∈ pair.language∗ * {['a']} →
            text.take (n + 1) ∉ pair.language∗ * pair.restarts) ∧
        d.accepts ['a'] = true ∧ d.accepts ['a', 'b', 'a'] = false := by
  have hroot : lazyPairs.rootExpr =
      .ok (.concat 5 (.repetition 3 .lazyStar pair) (.leaf 4 (.codepoint 0x61))) := by rfl
  have hloop : pair.LoopFree := by decide
  have hanchor : pair.AllLeaves Leaf.IsAnchorFree := by decide
  have hplain : pair.AllLeaves Leaf.IsPlain := by decide
  have hword : (Expr.leaf 4 (.codepoint 0x61)).shape = Expr.text ['a'] := by rfl
  obtain ⟨d, hd, h, _⟩ := ofTree_lazyLoop_accepts_iff hroot hloop hanchor hplain hword
  have hshort : (ofTree lazyPairs).map (·.accepts ['a']) = .ok true := by cbv
  have hlong : (ofTree lazyPairs).map (·.accepts ['a', 'b', 'a']) = .ok false := by cbv
  rw [hd] at hshort hlong
  exact ⟨hroot, hloop, hanchor, hplain, hword, d, hd, h, Except.ok.inj hshort,
    Except.ok.inj hlong⟩

end Automaton

end PositionAutomata
