import PositionAutomata.Proofs.Trimming

/-
  Trimmed and untrimmed automata.

  Trimming adds no match and changes no symbol, and it leaves first matches
  alone: a text of which no shorter part is accepted is accepted trimmed if it
  is accepted untrimmed.
-/

namespace PositionAutomata

namespace Automaton

/-- The automaton of an anchor-free tree accepts nothing else than the untrimmed one does, and a
text that the untrimmed one accepts without accepting a shorter beginning of it. -/
theorem run_trimmed_agrees_on_first_matches {t : Tree} {c : Config} {e : Expr NodeId}
    {d : Automaton} (hroot : t.rootExpr = .ok e) (hanchor : e.AllLeaves Leaf.IsAnchorFree)
    (hd : ofTree t c = .ok d) :
    ∃ d', ofTree t { c with trim := false } = .ok d' ∧
      (∀ text k, d.run text = some k → d'.run text = some k) ∧
      (∀ text k, d'.run text = some k →
        (∀ i < text.length, d'.run (text.take i) = none) → d.run text = some k) ∧
      ((∀ text, d'.accepts text = true →
          ∀ i < text.length, d'.accepts (text.take i) = false) →
        ∀ text, d.run text = d'.run text) := by
  obtain ⟨e', he', hv, hlexer⟩ := of_ofTree hd
  obtain rfl : e' = e := Except.ok.inj (he'.symm.trans hroot)
  obtain ⟨u, f, haug, h⟩ := Config.augments_of_valid hroot hv hlexer
  rw [ofTree_eq haug h.root] at hd
  obtain rfl := Except.ok.inj hd
  have hd' : ofTree t { c with trim := false } = .ok _ := ofTree_eq haug h.root
  have hb := h.analysis_bounded c.lazy c.captures
  have hl := h.analysis_lettered c.lazy c.captures
    (hanchor.mono fun _ => Leaf.IsAnchorFree.isSharp)
  have ha := h.analysis_anchorFree c.lazy c.captures hanchor
  generalize Analysis.ofExpr u f c.lazy c.captures = a at hb hl ha hd'
  have hfirst : ∀ text k, (ofAnalysis a { c with trim := false }).run text = some k →
      (∀ i < text.length, (ofAnalysis a { c with trim := false }).run (text.take i) = none) →
      (ofAnalysis a c).run text = some k := fun _ _ => Analysis.run_of_first_match hb hl ha
  have hsub : ∀ text k, (ofAnalysis a c).run text = some k →
      (ofAnalysis a { c with trim := false }).run text = some k := fun text k hk =>
    ((Analysis.run_eq_some_iff_not_cut hb hl ha).mp hk).1
  refine ⟨_, hd', hsub, hfirst, fun hprefix text => ?_⟩
  -- If accepted texts have no accepted beginnings, every match is a first match.
  refine Option.ext fun k => ⟨hsub text k, fun hk => hfirst text k hk fun i hi => ?_⟩
  have hrej := hprefix text (by rw [accepts, hk]; rfl) i hi
  exact Option.not_isSome_iff_eq_none.mp (by rw [← accepts, hrej]; simp)

/-- As few letters `a` and `b` as possible, and then `bb`. -/
def lazySearch : Tree where
  nodes := #[.leaf (.codepoint 0x61), .leaf (.codepoint 0x62), .alternation 0 1,
    .repetition 2 ⟨0, Quantifier.unbounded, true⟩, .leaf (.codepoint 0x62), .leaf (.codepoint 0x62),
    .concat 4 5, .concat 3 6]
  root := some 7

/-- What the root of `lazySearch` unfolds to. -/
def lazySearchExpr : Expr NodeId :=
  .concat 7
    (.repetition 3 ⟨0, Quantifier.unbounded, true⟩
      (.alternation 2 (.leaf 0 (.codepoint 0x61)) (.leaf 1 (.codepoint 0x62))))
    (.concat 6 (.leaf 4 (.codepoint 0x62)) (.leaf 5 (.codepoint 0x62)))

theorem run_lazySearch_agrees_on_first_matches :
    lazySearch.rootExpr = .ok lazySearchExpr ∧ lazySearchExpr.AllLeaves Leaf.IsAnchorFree ∧
      ∃ d, ofTree lazySearch = .ok d ∧ ∃ d', ofTree lazySearch { trim := false } = .ok d' ∧
        (∀ text k, d.run text = some k → d'.run text = some k) ∧
        (∀ text k, d'.run text = some k →
          (∀ i < text.length, d'.run (text.take i) = none) → d.run text = some k) ∧
        ((∀ text, d'.accepts text = true →
            ∀ i < text.length, d'.accepts (text.take i) = false) →
          ∀ text, d.run text = d'.run text) := by
  have hroot : lazySearch.rootExpr = .ok lazySearchExpr := by rfl
  have hanchor : lazySearchExpr.AllLeaves Leaf.IsAnchorFree := by decide
  have hvalid : lazySearchExpr.Valid := by decide
  obtain ⟨u, f, _, hd⟩ := ofTree_of_valid (c := {}) hroot hvalid (by decide)
  exact ⟨hroot, hanchor, _, hd, run_trimmed_agrees_on_first_matches hroot hanchor hd⟩

end Automaton

end PositionAutomata
