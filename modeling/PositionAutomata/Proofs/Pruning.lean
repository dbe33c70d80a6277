import Mathlib
import PositionAutomata.Proofs.Automaton.Liveness

/-
  What pruning removes.

  Pruning looks for the live states backwards from the accepting ones. By
  `mem_live_iff` it keeps a transition exactly if the closure of its target
  meets an accepting state (`prune_eq_filterTransitions_leadsOn`), and answers
  how many it does not keep (`prune_count`). A path to acceptance consists of
  transitions that are kept, so a second pruning finds the same states live
  (`prune_prune`).
-/

namespace PositionAutomata.Automaton

variable {a : Automaton} {t : Transition}

/-- An accepting state can be reached from where the transition leads. -/
def LeadsOn (a : Automaton) (t : Transition) : Prop :=
  ∃ f ∈ a.closure t.target, a.isAccepting f = true

instance (a : Automaton) : DecidablePred a.LeadsOn := fun t =>
  inferInstanceAs (Decidable (∃ f ∈ a.closure t.target, a.isAccepting f = true))

theorem prune_eq_filterTransitions_leadsOn (a : Automaton) :
    a.prune.2 = a.filterTransitions fun _ t => decide (a.LeadsOn t) := by
  rw [prune_eq_filterTransitions]
  congr 1
  funext _ t
  exact decide_eq_decide.mpr mem_live_iff

/-! ## Counting -/

theorem transitionCount_eq_length (a : Automaton) :
    a.transitionCount = (a.states.toList.flatMap State.transitions).length := by
  rw [transitionCount, ← Array.foldl_toList, List.length_flatMap, List.sum_eq_foldl, List.foldl_map]

theorem flatMap_filterTransitions (a : Automaton) (p : Transition → Bool) :
    (a.filterTransitions fun _ => p).states.toList.flatMap State.transitions =
      (a.states.toList.flatMap State.transitions).filter p := by
  have hstates : (a.filterTransitions fun _ => p).states.toList =
      a.states.toList.map fun s => { s with transitions := s.transitions.filter p } := by
    apply List.ext_getElem?
    intro q
    simp [filterTransitions]
  rw [hstates, List.flatMap_map, List.filter_flatMap]

/-- What pruning answers is how many transitions lead to where nothing is accepted any more. -/
theorem prune_count (a : Automaton) :
    a.prune.1 = (a.states.toList.flatMap State.transitions).countP fun t => !a.LeadsOn t := by
  show a.transitionCount - a.prune.2.transitionCount = _
  rw [prune_eq_filterTransitions_leadsOn, transitionCount_eq_length, transitionCount_eq_length,
    flatMap_filterTransitions, ← List.countP_eq_length_filter,
    List.length_eq_countP_add_countP fun t => decide (a.LeadsOn t), Nat.add_sub_cancel_left]
  simp

/-! ## Pruning again -/

theorem mem_successors_prune {q r : StateId} (hr : r ∈ a.successors q) (hlive : r ∈ a.live) :
    r ∈ a.prune.2.successors q := by
  obtain ⟨s, hs, t, ht, rfl⟩ := mem_successors.mp hr
  rw [prune_eq_filterTransitions, mem_successors, get?_filterTransitions, hs]
  exact ⟨_, rfl, t, List.mem_filter.mpr ⟨ht, decide_eq_true hlive⟩, rfl⟩

/-- A path to acceptance is not pruned. -/
theorem LeadsOn.prune (h : a.LeadsOn t) : a.prune.2.LeadsOn t := by
  have hsize : a.prune.2.size = a.size := by simp [prune_eq_filterTransitions]
  obtain ⟨f, hf, hacc⟩ := exists_reaches_accepting hsize (fun _ => mem_successors_prune)
    (mem_live_iff.mpr h)
  refine ⟨f, mem_closure_iff.mpr hf, ?_⟩
  rw [isAccepting, prune_eq_filterTransitions, accept_filterTransitions]
  exact hacc

/-- After pruning, a test that no path to acceptance fails keeps all transitions. -/
theorem filterTransitions_prune_of_leadsOn {keep : StateId → Transition → Bool}
    (h : ∀ q t, a.LeadsOn t → keep q t = true) :
    a.prune.2.filterTransitions keep = a.prune.2 := by
  rw [prune_eq_filterTransitions_leadsOn, filterTransitions_filterTransitions]
  congr 1
  funext q t
  by_cases ht : a.LeadsOn t
  · simp [ht, h q t ht]
  · simp [ht]

theorem prune_prune (a : Automaton) : a.prune.2.prune = (0, a.prune.2) := by
  have hkept : a.prune.2.prune.2 = a.prune.2 := by
    rw [prune_eq_filterTransitions_leadsOn a.prune.2]
    exact filterTransitions_prune_of_leadsOn fun _ _ h => decide_eq_true h.prune
  have hcount : a.prune.2.prune.1 = 0 := by
    show a.prune.2.transitionCount - a.prune.2.prune.2.transitionCount = 0
    rw [hkept, Nat.sub_self]
  exact Prod.ext hcount hkept

/-- Pruning takes away the transitions from whose targets no accepting state can be reached, answers
how many there were, and leaves all else as it is, the order of the others included. A second pruning
takes nothing away. Where the labels of each state are separate, runs and longest matches are what
they were. -/
theorem prune_removes_dead_transitions (a : Automaton) :
    (∀ q, a.prune.2.get? q = (a.get? q).map fun s =>
        { s with
          transitions := s.transitions.filter fun t =>
            (a.closure t.target).any a.isAccepting }) ∧
      a.prune.2.start = a.start ∧ a.prune.2.size = a.size ∧
      a.prune.1 = (a.states.toList.flatMap State.transitions).countP (fun t =>
        !(a.closure t.target).any a.isAccepting) ∧
      a.prune.2.prune = (0, a.prune.2) ∧
      (a.Separated → ∀ text,
        a.prune.2.run text = a.run text ∧ a.prune.2.longestMatch text = a.longestMatch text) := by
  have hany : ∀ t : Transition, (a.closure t.target).any a.isAccepting = decide (a.LeadsOn t) := by
    intro t
    rw [Bool.eq_iff_iff, List.any_eq_true, decide_eq_true_eq]
    rfl
  simp only [hany]
  refine ⟨fun q => ?_, rfl, ?_, prune_count a, prune_prune a, fun hsep text => ⟨?_, ?_⟩⟩
  · rw [prune_eq_filterTransitions_leadsOn, get?_filterTransitions]
  · rw [prune_eq_filterTransitions_leadsOn, size_filterTransitions]
  · exact run_prune hsep text
  · exact longestMatch_prune hsep text

/-- A letter `a` leads to where `b` leads back and a line start ends the text; a letter `c` leads to
where nothing is accepted any more, round a circle and, by `d`, out of it. -/
def deadCircle : Automaton where
  states := #[
    ⟨[⟨.single 0x61, 1⟩, ⟨.single 0x63, 3⟩], none, [⟨1, true, none⟩]⟩,
    ⟨[⟨.single 0x63, 4⟩, ⟨.single 0x62, 0⟩, ⟨.single lineStart, 2⟩], none, []⟩,
    ⟨[], some 7, [⟨1, false, none⟩]⟩,
    ⟨[⟨.single 0x63, 4⟩], none, []⟩,
    ⟨[⟨.single 0x63, 3⟩, ⟨.single 0x64, 5⟩], none, []⟩,
    ⟨[], none, []⟩]
  start := 0

theorem prune_deadCircle :
    deadCircle.Separated ∧ deadCircle.prune.1 = 5 ∧
      (deadCircle.prune.2.get? 1).map State.successors = some [0, 2] ∧
      deadCircle.prune.2.prune = (0, deadCircle.prune.2) ∧
      ∀ text, deadCircle.prune.2.run text = deadCircle.run text ∧
        deadCircle.prune.2.longestMatch text = deadCircle.longestMatch text := by
  have hsep : deadCircle.Separated := by decide
  obtain ⟨_, _, _, _, hprune, hruns⟩ := prune_removes_dead_transitions deadCircle
  exact ⟨hsep, by cbv, by cbv, hprune, hruns hsep⟩

end PositionAutomata.Automaton
