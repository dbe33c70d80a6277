import PositionAutomata.Proofs.Construction.Recognition
import PositionAutomata.Proofs.Construction.States

/-
  Determinism and numbering.

  The labels of a built automaton are letters, which are made from whatever
  values the leaves hold: intervals of code points, and single values above
  them. They do not overlap, so a value leads from a state to one state at most.
  The states are numbered in the order in which the start reaches them.
-/

namespace PositionAutomata.Automaton

/-- A built automaton starts in its first state, goes only to states that it has, and lists them as
the start reaches them. Each label holds code points or is one value above them, and no value is in
two labels of a state. -/
theorem ofTree_deterministic {t : Tree} {c : Config} {d : Automaton} (h : ofTree t c = .ok d) :
    0 < d.size ∧ d.start = 0 ∧ (∀ s ∈ d.states, ∀ u ∈ s.transitions, u.target < d.size) ∧
      d.closure 0 = List.range d.size ∧
      (∀ s ∈ d.states, ∀ u ∈ s.transitions, u.range.last ≤ maxCodepoint ∨
        (maxCodepoint < u.range.first ∧ u.range.first = u.range.last)) ∧
      ∀ s ∈ d.states, ∀ v, s.transitions.countP (·.range.contains v) ≤ 1 := by
  obtain ⟨a, ha, rfl⟩ := exists_analyze_of_ofTree h
  have hb := Analysis.bounded_of_analyze ha
  have hwf := Analysis.wellFormed_ofAnalysis hb c
  have hstart : (ofAnalysis a c).start = 0 := rfl
  have hletters : ∀ l ∈ a.alphabet.letters,
      l.last ≤ maxCodepoint ∨ (maxCodepoint < l.first ∧ l.first = l.last) := by
    obtain ⟨_, u, f, _, _, rfl⟩ := Config.augments_of_analyze ha
    exact fun _ => Alphabet.bounds_of_mem_letters
  have hseparated := Analysis.separated_ofAnalysis hb (Analysis.partitioned_of_analyze ha) c
  refine ⟨Nat.lt_of_le_of_lt (Nat.zero_le _) hwf.1, hstart, (wellFormed_iff.mp hwf).2,
    Analysis.closure_ofAnalysis hb c,
    fun s hs u hu => hletters _ (Analysis.range_mem_letters hb hs hu), fun s hs v => ?_⟩
  obtain ⟨q, hq⟩ := Array.mem_iff_getElem?.mp hs
  exact (hseparated q s hq).countP_contains_le_one v

/-- A value from `a` up to the greater anchor, or the greatest value of 32 bits, and then a line
start. -/
def strayValues : Tree where
  nodes := #[.leaf (.charset ⟨[.range ⟨0x61, 0x110001, by decide⟩], false⟩),
    .leaf (.codepoint 0xffffffff), .alternation 0 1, .leaf (.codepoint 0x110000), .concat 2 3]
  root := some 4

theorem ofTree_strayValues_deterministic :
    ∃ d, ofTree strayValues = .ok d ∧ 0 < d.size ∧ d.start = 0 ∧
      (∀ s ∈ d.states, ∀ u ∈ s.transitions, u.target < d.size) ∧
      d.closure 0 = List.range d.size ∧
      (∀ s ∈ d.states, ∀ u ∈ s.transitions, u.range.last ≤ maxCodepoint ∨
        (maxCodepoint < u.range.first ∧ u.range.first = u.range.last)) ∧
      ∀ s ∈ d.states, ∀ v, s.transitions.countP (·.range.contains v) ≤ 1 := by
  obtain ⟨e, hroot, hvalid⟩ : ∃ e, strayValues.rootExpr = .ok e ∧ e.Valid :=
    ⟨_, by rfl, by decide⟩
  obtain ⟨u, f, _, hd⟩ := ofTree_of_valid (c := {}) hroot hvalid (by simp)
  exact ⟨_, hd, ofTree_deterministic hd⟩

end PositionAutomata.Automaton
