import Mathlib
import PositionAutomata.Proofs.Trimming

/-
  Lexers.

  A lexer that is not trimmed accepts what a rule matches, by that rule or an
  earlier one. Trimmed it does so unless the text is cut, which another rule with
  a lazy repetition can do to a rule that has none.
-/

namespace PositionAutomata

namespace Automaton

/-- A lexer accepts what a rule without lazy repetitions matches, by the rule or an earlier one,
unless the text is cut. It is cut only after a beginning that is matched itself, by a lazy
repetition of another rule. -/
theorem lexer_runs_matching_rule {t : Tree} {e : Expr NodeId} {d : Automaton}
    (hroot : t.rootExpr = .ok e) (hanchor : e.AllLeaves Leaf.IsAnchorFree)
    (hplain : e.AllLeaves Leaf.IsPlain) (hd : ofTree t { lexer := true } = .ok d) :
    ∃ a d', Config.analyze { lexer := true } t = .ok a ∧
      ofTree t { lexer := true, trim := false } = .ok d' ∧
      ∀ i x, e.alternatives[i]? = some x → x.Greedy →
        ∀ text, x.Matches text 0 text.length →
          ∃ j ≤ i, d'.run text = some j ∧
            (d.run text = some j ↔ ∀ n < text.length, ¬ a.Cut text n) ∧
            (d.run text = none ↔ ∃ n < text.length, a.Cut text n) ∧
            ∀ n, a.Cut text n → (∃ y ∈ e.alternatives, y.Matches text 0 n) ∧
              ∃ k y, k ≠ i ∧ e.alternatives[k]? = some y ∧ ¬ y.Greedy := by
  obtain ⟨a, d', h⟩ := Config.builtTwice_of_ofTree hroot hanchor hplain rfl hd
  refine ⟨a, d', h.analysis, h.untrimmed, fun i x hx hgreedy text hm => ?_⟩
  obtain ⟨j, hj, hrun⟩ := h.exists_le_of_matches hx hm
  have huncut : d.run text = some j ↔ ∀ n < text.length, ¬ a.Cut text n := by
    rw [h.uncut]
    exact ⟨fun hd => hd.2 rfl rfl, fun hd => ⟨hrun, fun _ _ => hd⟩⟩
  refine ⟨j, hj, hrun, huncut, ⟨fun hnone => ?_, ?_⟩, fun n hcut => ⟨?_, ?_⟩⟩
  · by_contra hcut
    rw [huncut.mpr fun n hn hc => hcut ⟨n, hn, hc⟩] at hnone
    exact absurd hnone (by simp)
  · intro h
    obtain ⟨n, hn, hcut⟩ := h
    exact h.run_eq_none_of_cut rfl rfl hn hcut
  · exact h.matches_of_cut text n hcut
  -- If no other rule were lazy, none would be, and the text would not be cut.
  · by_contra hother
    refine h.not_cut_of_greedy text n ?_ hcut
    apply (Expr.forall_mem_alternatives fun _ _ _ => Iff.rfl).mp
    intro y hy
    obtain ⟨k, hk⟩ := List.mem_iff_getElem?.mp hy
    by_contra hlazy
    have hne : k ≠ i := by
      rintro rfl
      obtain rfl := Option.some.inj (hx.symm.trans hk)
      exact hlazy hgreedy
    exact hother ⟨k, y, hne, hk, hlazy⟩

/-- Letters `a`, as many as possible, and then letters `a`, as few as possible. -/
def letterLexer : Tree where
  nodes := #[.leaf (.codepoint 0x61), .repetition 0 .plus, .leaf (.codepoint 0x61),
    .repetition 2 ⟨1, Quantifier.unbounded, true⟩, .alternation 1 3]
  root := some 4

/-- The first rule of `letterLexer`. -/
def lettersRule : Expr NodeId := .repetition 1 .plus (.leaf 0 (.codepoint 0x61))

/-- What the root of `letterLexer` unfolds to. -/
def letterRules : Expr NodeId :=
  .alternation 4 lettersRule
    (.repetition 3 ⟨1, Quantifier.unbounded, true⟩ (.leaf 2 (.codepoint 0x61)))

/-- The lazy rule of `letterLexer` makes it reject what the other rule matches. -/
theorem letterLexer_rejects_matched_letters :
    letterLexer.rootExpr = .ok letterRules ∧ letterRules.AllLeaves Leaf.IsAnchorFree ∧
      letterRules.AllLeaves Leaf.IsPlain ∧ letterRules.alternatives[0]? = some lettersRule ∧
      lettersRule.Greedy ∧ lettersRule.Matches ['a', 'a'] 0 2 ∧
      (ofTree letterLexer { lexer := true }).map (·.run ['a', 'a']) = .ok none := by
  have hread : ∀ i < 2, (Leaf.codepoint 0x61).Matches ['a', 'a'] i (i + 1) := by
    intro i hi
    refine .inr (.char (c := 'a') ?_ List.mem_cons_self (by decide))
    rcases Nat.lt_succ_iff_lt_or_eq.mp hi with hi | rfl
    · obtain rfl := Nat.lt_one_iff.mp hi
      rfl
    · rfl
  have hmatches : lettersRule.Matches ['a', 'a'] 0 2 :=
    ⟨2, by decide, 1, hread 0 (by decide), 2, hread 1 (by decide), rfl⟩
  exact ⟨by rfl, by decide, by decide, by rfl, by decide, hmatches, by cbv⟩

/-- The text `ab`, and letters `a`, as few as possible. -/
def pairLexer : Tree where
  nodes := #[.leaf (.codepoint 0x61), .leaf (.codepoint 0x62), .concat 0 1,
    .leaf (.codepoint 0x61), .repetition 3 ⟨1, Quantifier.unbounded, true⟩, .alternation 2 4]
  root := some 5

/-- The first rule of `pairLexer`. -/
def pairRule : Expr NodeId := .concat 2 (.leaf 0 (.codepoint 0x61)) (.leaf 1 (.codepoint 0x62))

/-- What the root of `pairLexer` unfolds to. -/
def pairRules : Expr NodeId :=
  .alternation 5 pairRule
    (.repetition 4 ⟨1, Quantifier.unbounded, true⟩ (.leaf 3 (.codepoint 0x61)))

set_option maxRecDepth 2000 in
theorem pairLexer_runs_pairRule :
    pairLexer.rootExpr = .ok pairRules ∧ pairRules.AllLeaves Leaf.IsAnchorFree ∧
      pairRules.AllLeaves Leaf.IsPlain ∧ pairRules.alternatives[0]? = some pairRule ∧
      pairRule.Greedy ∧ pairRule.Matches ['a', 'b'] 0 2 ∧
      ∃ d, ofTree pairLexer { lexer := true } = .ok d ∧ d.run ['a', 'b'] = some 0 ∧
        ∃ a, Config.analyze { lexer := true } pairLexer = .ok a ∧
          ∀ n < 2, ¬ a.Cut ['a', 'b'] n := by
  have hroot : pairLexer.rootExpr = .ok pairRules := by rfl
  have hanchor : pairRules.AllLeaves Leaf.IsAnchorFree := by decide
  have hplain : pairRules.AllLeaves Leaf.IsPlain := by decide
  have hgreedy : pairRule.Greedy := by decide
  have hmatches : pairRule.Matches ['a', 'b'] 0 2 :=
    ⟨1, .inr (.char (c := 'a') rfl List.mem_cons_self (by decide)),
      .inr (.char (c := 'b') rfl List.mem_cons_self (by decide))⟩
  obtain ⟨_, _, _, hd⟩ := ofTree_of_valid (c := { lexer := true }) hroot (by decide) (fun _ => rfl)
  obtain ⟨a, d', ha, _, h⟩ := lexer_runs_matching_rule hroot hanchor hplain hd
  obtain ⟨j, hj, _, huncut, _⟩ := h 0 pairRule rfl hgreedy ['a', 'b'] hmatches
  obtain rfl := Nat.le_zero.mp hj
  have hrun : (ofTree pairLexer { lexer := true }).map (·.run ['a', 'b']) = .ok (some 0) := by cbv
  rw [hd] at hrun
  exact ⟨hroot, hanchor, hplain, rfl, hgreedy, hmatches, _, hd, Except.ok.inj hrun, a, ha,
    huncut.mp (Except.ok.inj hrun)⟩

end Automaton

end PositionAutomata
