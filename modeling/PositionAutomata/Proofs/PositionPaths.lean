import Mathlib
import PositionAutomata.Proofs.Construction.Paths
import PositionAutomata.Proofs.Construction.States

/-
  States as sets of paths.

  A word leads to a state of the synthesized automaton exactly if there is a path
  of positions for it. The state then stands for all these paths: its positions
  are those in which they end, and its lazy positions those to which some of them
  has come through an inherently lazy one. Where nothing is pruned or trimmed the
  automaton that is built is this one with its states renumbered.
-/

namespace PositionAutomata

namespace Analysis

/-- Without pruning and trimming, what is built is the synthesized automaton renumbered. -/
theorem ofAnalysis_eq_retainReachable (a : Analysis) {c : Config} (hprune : c.prune = false)
    (htrim : c.trim = false) : Automaton.ofAnalysis a c = a.synthesized.retainReachable := by
  have hkept : a.keptTransition c = fun _ _ => true := by
    funext q t
    simp [keptTransition, htrim]
  rw [ofAnalysis_eq, hkept, Automaton.filterTransitions_true, pruned, hprune, if_neg (by simp)]

/-- A word of code points can be followed in the synthesized automaton exactly if there is a path
for it. The state to which it leads has as positions those to which paths for the word lead, and as
lazy positions those to which a path with an inherently lazy position leads. If nothing is pruned or
trimmed, the built automaton follows the word to the same state under its new number. -/
theorem follow?_synthesized_collects_paths {t : Tree} {c : Config} {a : Analysis} {w : List Nat}
    (h : c.analyze t = .ok a) (hprune : c.prune = false) (htrim : c.trim = false)
    (hw : ∀ x ∈ w, x ≤ maxCodepoint) :
    ((∃ q, a.synthesized.follow? a.synthesized.start w = some q) ↔ ∃ ps p, a.Path w ps p) ∧
      (∀ q, a.synthesized.follow? a.synthesized.start w = some q → ∃ k, a.keys[q]? = some k ∧
        (∀ p, p ∈ k.positions ↔ ∃ ps, a.Path w ps p) ∧
        ∀ p, p ∈ k.lazy ↔
          ∃ ps, a.Path w ps p ∧ ∃ x ∈ ps ++ [p], a.laziness.isLazy x = true) ∧
      ∃ d, Automaton.ofTree t c = .ok d ∧
        d.follow? d.start w =
          (a.synthesized.follow? a.synthesized.start w).map a.synthesized.newId := by
  have hb := bounded_of_analyze h
  refine ⟨exists_follow?_iff h hw, fun q hq => ?_, _, Automaton.ofTree_of_analyze h, ?_⟩
  · obtain ⟨k, hk, hcol⟩ := exists_key_of_follow? hb (partitioned_of_analyze h) hq
    exact ⟨k, hk, hcol.positions, hcol.lazy⟩
  · rw [ofAnalysis_eq_retainReachable a hprune htrim]
    exact Automaton.follow?_retainReachable (wellFormed_synthesized hb)

/-- A letter `a` or nothing, rather nothing, or a letter `b`; then `c` and some letters `d`, as few
as possible. -/
def lazyLead : Tree where
  nodes := #[.leaf (.codepoint 0x61), .repetition 0 ⟨0, 1, true⟩, .leaf (.codepoint 0x62),
    .alternation 1 2, .leaf (.codepoint 0x63), .leaf (.codepoint 0x64),
    .repetition 5 ⟨1, Quantifier.unbounded, true⟩, .concat 4 6, .concat 3 7]
  root := some 8

set_option maxRecDepth 4000 in
/-- After `a` the position of `c` is lazy, as the path to it comes through the lazy letter. -/
theorem follow?_lazyLead_collects_paths :
    ∃ a, Config.analyze { prune := false, trim := false } lazyLead = .ok a ∧
      (∀ x ∈ [0x61], x ≤ maxCodepoint) ∧
      (a.synthesized.follow? a.synthesized.start [0x61]).bind (a.keys[·]?) =
        some ⟨.singleton 3, .singleton 3⟩ ∧
      ((∃ q, a.synthesized.follow? a.synthesized.start [0x61] = some q) ↔
        ∃ ps p, a.Path [0x61] ps p) ∧
      (∀ q, a.synthesized.follow? a.synthesized.start [0x61] = some q →
        ∃ k, a.keys[q]? = some k ∧ (∀ p, p ∈ k.positions ↔ ∃ ps, a.Path [0x61] ps p) ∧
          ∀ p, p ∈ k.lazy ↔
            ∃ ps, a.Path [0x61] ps p ∧ ∃ x ∈ ps ++ [p], a.laziness.isLazy x = true) ∧
      ∃ d, Automaton.ofTree lazyLead { prune := false, trim := false } = .ok d ∧
        d.follow? d.start [0x61] =
          (a.synthesized.follow? a.synthesized.start [0x61]).map a.synthesized.newId := by
  have hkey : (Config.analyze { prune := false, trim := false } lazyLead).map (fun a =>
      (a.synthesized.follow? a.synthesized.start [0x61]).bind (a.keys[·]?)) =
        .ok (some ⟨.singleton 3, .singleton 3⟩) := by cbv
  have hword : ∀ x ∈ [0x61], x ≤ maxCodepoint := by decide
  cases ha : Config.analyze { prune := false, trim := false } lazyLead with
  | error _ =>
    rw [ha] at hkey
    exact absurd hkey (by simp [Except.map])
  | ok a =>
    rw [ha] at hkey
    exact ⟨a, rfl, hword, Except.ok.inj hkey, follow?_synthesized_collects_paths ha rfl rfl hword⟩

end Analysis

end PositionAutomata
