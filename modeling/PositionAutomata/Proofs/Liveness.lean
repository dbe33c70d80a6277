import PositionAutomata.Proofs.Automaton.Liveness
import PositionAutomata.Proofs.Construction.Recognition
import PositionAutomata.Proofs.Construction.States

/-
  Pruned automata.

  Dead transitions are removed once, before others are trimmed and the states
  renumbered. Trimming only takes transitions away from accepting states, so it
  leaves no other transition dead, and neither does renumbering: from wherever a
  transition of the built automaton leads, an accepting state can be reached.
-/

namespace PositionAutomata

namespace Analysis

variable {a : Analysis} {c : Config} {q r : StateId} {k : Key}

theorem keeps_of_not_accepting (hb : a.Bounded) (hk : a.keys[q]? = some k)
    (hq : a.synthesized.isAccepting q = false) (k' : Key) : a.Keeps c k k' := by
  intro _ _ h
  obtain ⟨hacc, _⟩ := h
  rw [Automaton.isAccepting, accept_synthesized hb hk, hacc] at hq
  exact absurd hq (by simp)

/-- What is left after pruning and trimming leads on from a state as before where the options keep
the step and its end is live. -/
theorem mem_successors_kept (hprune : c.prune = true) :
    r ∈ (a.kept c).successors q ↔ ∃ s, a.synthesized.get? q = some s ∧ ∃ t ∈ s.transitions,
      t.target ∈ a.synthesized.live ∧ a.keptTransition c q t = true ∧ t.target = r := by
  rw [kept, pruned, if_pos hprune, Automaton.prune_eq_filterTransitions, Automaton.mem_successors]
  simp only [Automaton.get?_filterTransitions, Option.map_map, Option.map_eq_some_iff,
    Function.comp_apply]
  constructor
  · intro h
    obtain ⟨_, ⟨s, hs, rfl⟩, t, ht, rfl⟩ := h
    obtain ⟨ht, hkeep⟩ := List.mem_filter.mp ht
    obtain ⟨ht, hlive⟩ := List.mem_filter.mp ht
    exact ⟨s, hs, t, ht, of_decide_eq_true hlive, hkeep, rfl⟩
  · intro h
    obtain ⟨s, hs, t, ht, hlive, hkeep, rfl⟩ := h
    exact ⟨_, ⟨s, hs, rfl⟩, t,
      List.mem_filter.mpr ⟨List.mem_filter.mpr ⟨ht, decide_eq_true hlive⟩, hkeep⟩, rfl⟩

/-- Trimming after pruning leaves no dead transition. -/
theorem productive_kept (hb : a.Bounded) (hprune : c.prune = true) : (a.kept c).Productive := by
  obtain ⟨test, htest⟩ := exists_kept_eq a c
  have hsize : (a.kept c).size = a.synthesized.size := by simp [htest]
  have haccept : ∀ q, (a.kept c).isAccepting q = a.synthesized.isAccepting q := fun q => by
    simp [htest, Automaton.isAccepting]
  -- A state that does not accept keeps its live successors.
  have hkeep : ∀ {q r}, a.synthesized.isAccepting q = false → r ∈ a.synthesized.successors q →
      r ∈ a.synthesized.live → r ∈ (a.kept c).successors q := by
    intro q r hq hr hlive
    obtain ⟨s, hs, t, ht, rfl⟩ := Automaton.mem_successors.mp hr
    obtain ⟨k, hk⟩ := exists_key hs
    obtain ⟨_, k', _, hk'⟩ := (mem_transitions hb hk hs).mp ht
    have hkept := (keptTransition_iff hb c hk hk').mpr (keeps_of_not_accepting hb hk hq k')
    exact (mem_successors_kept hprune).mpr ⟨s, hs, t, ht, hlive, hkept, rfl⟩
  intro q r hr
  obtain ⟨_, _, t, _, hlive, _, rfl⟩ := (mem_successors_kept hprune).mp hr
  obtain ⟨f, hf, hacc⟩ := Automaton.exists_reaches_accepting hsize hkeep hlive
  exact ⟨f, Automaton.mem_closure_iff.mpr hf, by rw [haccept, hacc]⟩

theorem productive_ofAnalysis (hb : a.Bounded) (hprune : c.prune = true) :
    (Automaton.ofAnalysis a c).Productive := by
  rw [ofAnalysis_eq, ← kept]
  exact (productive_kept hb hprune).retainReachable (wellFormed_kept hb c)

end Analysis

namespace Automaton

/-- In a pruned automaton an accepting state can be reached from wherever a transition leads, also
after trimming. If no state accepts, there is one state and no transition. -/
theorem ofTree_pruned_productive {t : Tree} {c : Config} {d : Automaton} (h : ofTree t c = .ok d)
    (hprune : c.prune = true) :
    (∀ s ∈ d.states, ∀ u ∈ s.transitions, ∃ f ∈ d.closure u.target, d.isAccepting f = true) ∧
      ((∀ q, d.isAccepting q = false) → d.size = 1 ∧ ∀ s ∈ d.states, s.transitions = []) := by
  obtain ⟨a, ha, rfl⟩ := exists_analyze_of_ofTree h
  have hb := Analysis.bounded_of_analyze ha
  have hwf := Analysis.wellFormed_ofAnalysis hb c
  have hproductive := Analysis.productive_ofAnalysis hb hprune
  refine ⟨fun s hs u hu => ?_,
    hproductive.of_no_accepting hwf (Analysis.closure_ofAnalysis hb c)⟩
  obtain ⟨q, hq⟩ := Array.mem_iff_getElem?.mp hs
  exact hproductive q u.target (mem_successors.mpr ⟨s, hq, u, hu, rfl⟩)

/-- A letter `a` before what nothing matches, or some letters `b`, as few as possible. -/
def deadBranch : Tree where
  nodes := #[.leaf (.codepoint 0x61), .leaf (.charset ⟨[], false⟩), .concat 0 1,
    .leaf (.codepoint 0x62), .repetition 3 ⟨1, Quantifier.unbounded, true⟩, .alternation 2 4]
  root := some 5

theorem ofTree_deadBranch_productive :
    ∃ d, ofTree deadBranch = .ok d ∧ ({} : Config).prune = true ∧
      (∀ s ∈ d.states, ∀ u ∈ s.transitions, ∃ f ∈ d.closure u.target, d.isAccepting f = true) ∧
      ((∀ q, d.isAccepting q = false) → d.size = 1 ∧ ∀ s ∈ d.states, s.transitions = []) := by
  obtain ⟨e, hroot, hvalid⟩ : ∃ e, deadBranch.rootExpr = .ok e ∧ e.Valid := ⟨_, by rfl, by decide⟩
  obtain ⟨u, f, _, hd⟩ := ofTree_of_valid (c := {}) hroot hvalid (by simp)
  exact ⟨_, hd, rfl, ofTree_pruned_productive hd rfl⟩

end Automaton

end PositionAutomata
