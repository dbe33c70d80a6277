import Mathlib
import PositionAutomata.Proofs.Trimming

/-
  Iterations of a tree.

  Texts that the automaton of a tree accepts, one after the other, are accepted
  by the automaton of any number of iterations of the tree if it is not trimmed,
  and trimmed unless they are cut. A lazy repetition in the tree can cut them,
  although the iterations are greedy.
-/

namespace PositionAutomata

theorem Quantifier.allows_star (n : Nat) : star.Allows n :=
  ⟨Nat.zero_le n, fun h => absurd h (by decide)⟩

theorem Quantifier.allows_plus {n : Nat} (hn : n ≠ 0) : plus.Allows n :=
  ⟨Nat.pos_of_ne_zero hn, fun h => absurd h (by decide)⟩

namespace Expr

variable {α β : Type}

/-- Without anchors words that are matched alone are matched one after the other. -/
theorem iterated_flatten {e : Expr α} (he : e.AllLeaves Leaf.IsAnchorFree)
    {words : List (List Char)} (h : ∀ w ∈ words, e.Matches w 0 w.length) (before : List Char) :
    Iterated (e.Matches (before ++ words.flatten)) words.length before.length
      (before ++ words.flatten).length := by
  induction words generalizing before with
  | nil => simp [Iterated]
  | cons w ws ih =>
    rw [List.forall_mem_cons] at h
    have hw := h.1.within he before ws.flatten
    have hws := ih h.2 (before ++ w)
    rw [List.length_append] at hws
    rw [List.flatten_cons, ← List.append_assoc]
    exact ⟨before.length + w.length, hw, hws⟩

/-- A repetition matches as many words as its quantifier allows, one after the other. -/
theorem matches_flatten {e : Expr α} {f : Expr β} (hf : f.shape = e.shape)
    (he : e.AllLeaves Leaf.IsAnchorFree) {words : List (List Char)}
    (h : ∀ w ∈ words, e.Matches w 0 w.length) {q : Quantifier} (hq : q.Allows words.length)
    {b : β} : (repetition b q f).Matches words.flatten 0 words.flatten.length := by
  refine ⟨words.length, hq, iterated_flatten (allLeaves_of_shape hf he) (fun w hw => ?_) []⟩
  exact (matches_of_shape hf).mpr (h w hw)

end Expr

/-- The tree with a repetition of its root as its root. -/
def Tree.repeated (t : Tree) (q : Quantifier) : Tree where
  nodes := t.nodes.push (.repetition (t.root.getD 0) q)
  root := some t.size

namespace Automaton

/-- Texts that the automaton of a tree accepts, one after the other, are accepted by the automaton
of its greedy iterations unless they are cut, and always if trimming is off or the tree has no lazy
repetition. -/
theorem ofTree_repetition_accepts_flatten {t u : Tree} {e f : Expr NodeId} {id : NodeId}
    {q : Quantifier} {d : Automaton} (hroot : t.rootExpr = .ok e)
    (hanchor : e.AllLeaves Leaf.IsAnchorFree) (hplain : e.AllLeaves Leaf.IsPlain)
    (hd : ofTree t = .ok d) (hq : q = .star ∨ q = .plus)
    (hu : u.rootExpr = .ok (.repetition id q f)) (hf : f.shape = e.shape) :
    ∃ a r r', Config.analyze {} u = .ok a ∧ ofTree u = .ok r ∧
      ofTree u { trim := false } = .ok r' ∧
      ∀ words : List (List Char), (∀ w ∈ words, d.accepts w = true) →
        (q = .plus → words ≠ []) →
          r'.accepts words.flatten = true ∧
          (r.accepts words.flatten = true ↔
            ∀ i < words.flatten.length, ¬ a.Cut words.flatten i) ∧
          (e.Greedy → r.accepts words.flatten = true) := by
  obtain ⟨b, d', ht⟩ := Config.builtTwice_of_ofTree hroot hanchor hplain rfl hd
  obtain ⟨e', he', hv, _⟩ := of_ofTree hd
  obtain rfl : e' = e := Except.ok.inj (he'.symm.trans hroot)
  have hvalid : (Expr.repetition id q f).Valid := by
    refine ⟨?_, Expr.valid_of_shape hf hv⟩
    rcases hq with rfl | rfl <;> rfl
  have hanchor' : f.AllLeaves Leaf.IsAnchorFree := Expr.allLeaves_of_shape hf hanchor
  have hplain' : f.AllLeaves Leaf.IsPlain := Expr.allLeaves_of_shape hf hplain
  obtain ⟨a, r, r', hr⟩ := Config.exists_builtTwice (c := {}) hu hvalid hanchor' hplain'
    (fun h => absurd h (by decide)) rfl
  refine ⟨a, r, r', hr.analysis, hr.trimmed, hr.untrimmed, fun words hwords hne => ?_⟩
  -- What the trimmed automaton of the tree accepts, the tree matches.
  have hmatch : ∀ w ∈ words, e'.Matches w 0 w.length := by
    intro w hw
    obtain ⟨x, hx, hm⟩ := ht.accepts_untrimmed_iff.mp (ht.accepts_iff_uncut.mp (hwords w hw)).1
    rwa [List.mem_singleton.mp hx] at hm
  have hallows : q.Allows words.length := by
    rcases hq with rfl | rfl
    · exact Quantifier.allows_star _
    · exact Quantifier.allows_plus fun h => hne rfl (List.length_eq_zero_iff.mp h)
  have huntrimmed : r'.accepts words.flatten = true := by
    refine hr.accepts_untrimmed_iff.mpr ⟨_, List.mem_singleton.mpr rfl, ?_⟩
    exact Expr.matches_flatten hf hanchor hmatch hallows
  have huncut : r.accepts words.flatten = true ↔
      ∀ i < words.flatten.length, ¬ a.Cut words.flatten i := by
    rw [hr.accepts_iff_uncut]
    exact ⟨fun h => h.2 rfl rfl, fun h => ⟨huntrimmed, fun _ _ => h⟩⟩
  refine ⟨huntrimmed, huncut, fun hgreedy => huncut.mpr fun i _ => ?_⟩
  refine hr.not_cut_of_greedy _ i ⟨?_, Expr.greedy_of_shape hf hgreedy⟩
  rcases hq with rfl | rfl <;> rfl

/-- Letters `a`, at least one and as few as possible. -/
def lazyLetters : Tree where
  nodes := #[.leaf (.codepoint 0x61), .repetition 0 ⟨1, Quantifier.unbounded, true⟩]
  root := some 1

/-- What the root of `lazyLetters` unfolds to. -/
def lazyLettersExpr : Expr NodeId :=
  .repetition 1 ⟨1, Quantifier.unbounded, true⟩ (.leaf 0 (.codepoint 0x61))

/-- The iterations of `lazyLetters` reject what is a word of theirs, or two. -/
theorem repeated_lazyLetters_rejects_flatten :
    lazyLetters.rootExpr = .ok lazyLettersExpr ∧ lazyLettersExpr.AllLeaves Leaf.IsAnchorFree ∧
      lazyLettersExpr.AllLeaves Leaf.IsPlain ∧
      (ofTree lazyLetters).map (·.accepts ['a']) = .ok true ∧
      (lazyLetters.repeated .star).rootExpr = .ok (.repetition 2 .star lazyLettersExpr) ∧
      (ofTree (lazyLetters.repeated .star)).map (·.accepts [['a']].flatten) = .ok false ∧
      (lazyLetters.repeated .plus).rootExpr = .ok (.repetition 2 .plus lazyLettersExpr) ∧
      (ofTree (lazyLetters.repeated .plus)).map (·.accepts [['a'], ['a']].flatten) =
        .ok false := by
  exact ⟨by rfl, by decide, by decide, by cbv, by rfl, by cbv, by rfl, by cbv⟩

/-- A letter `a`, as few letters `b` as possible, and a letter `c`. -/
def lazyBlock : Tree where
  nodes := #[.leaf (.codepoint 0x61), .leaf (.codepoint 0x62),
    .repetition 1 ⟨0, Quantifier.unbounded, true⟩, .leaf (.codepoint 0x63), .concat 2 3,
    .concat 0 4]
  root := some 5

/-- What the root of `lazyBlock` unfolds to. -/
def lazyBlockExpr : Expr NodeId :=
  .concat 5 (.leaf 0 (.codepoint 0x61))
    (.concat 4 (.repetition 2 ⟨0, Quantifier.unbounded, true⟩ (.leaf 1 (.codepoint 0x62)))
      (.leaf 3 (.codepoint 0x63)))

theorem repeated_lazyBlock_accepts_flatten :
    lazyBlock.rootExpr = .ok lazyBlockExpr ∧ lazyBlockExpr.AllLeaves Leaf.IsAnchorFree ∧
      lazyBlockExpr.AllLeaves Leaf.IsPlain ∧
      (lazyBlock.repeated .star).rootExpr = .ok (.repetition 6 .star lazyBlockExpr) ∧
      ∃ d, ofTree lazyBlock = .ok d ∧
        (∀ w ∈ [['a', 'c'], ['a', 'b', 'c']], d.accepts w = true) ∧
        ∃ a r r', Config.analyze {} (lazyBlock.repeated .star) = .ok a ∧
          ofTree (lazyBlock.repeated .star) = .ok r ∧
          ofTree (lazyBlock.repeated .star) { trim := false } = .ok r' ∧
          r'.accepts ['a', 'c', 'a', 'b', 'c'] = true ∧
          (r.accepts ['a', 'c', 'a', 'b', 'c'] = true ↔
            ∀ i < 5, ¬ a.Cut ['a', 'c', 'a', 'b', 'c'] i) ∧
          r.accepts ['a', 'c', 'a', 'b', 'c'] = true := by
  have hroot : lazyBlock.rootExpr = .ok lazyBlockExpr := by rfl
  have hanchor : lazyBlockExpr.AllLeaves Leaf.IsAnchorFree := by decide
  have hplain : lazyBlockExpr.AllLeaves Leaf.IsPlain := by decide
  have hstar : (lazyBlock.repeated .star).rootExpr = .ok (.repetition 6 .star lazyBlockExpr) := by
    rfl
  obtain ⟨_, _, _, hd⟩ := ofTree_of_valid (c := {}) hroot (by decide) (by decide)
  obtain ⟨a, r, r', ha, hr, hr', h⟩ :=
    ofTree_repetition_accepts_flatten hroot hanchor hplain hd (.inl rfl) hstar rfl
  have hwords : ∀ w ∈ [['a', 'c'], ['a', 'b', 'c']],
      (ofTree lazyBlock).map (·.accepts w) = .ok true := by
    intro w hw
    rcases List.mem_pair.mp hw with rfl | rfl
    · cbv
    · cbv
  have hacc : ∀ w ∈ [['a', 'c'], ['a', 'b', 'c']], Automaton.accepts _ w = true := fun w hw =>
    Except.ok.inj (by rw [← hwords w hw, hd]; rfl)
  obtain ⟨huntrimmed, huncut, _⟩ := h _ hacc (by simp)
  have hflatten : (ofTree (lazyBlock.repeated .star)).map
      (·.accepts ['a', 'c', 'a', 'b', 'c']) = .ok true := by cbv
  rw [hr] at hflatten
  exact ⟨hroot, hanchor, hplain, hstar, _, hd, hacc, a, r, r', ha, hr, hr', huntrimmed, huncut,
    Except.ok.inj hflatten⟩

end Automaton

end PositionAutomata
