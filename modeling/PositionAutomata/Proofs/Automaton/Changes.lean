import Mathlib.Data.List.Pairwise
import PositionAutomata.Proofs.Automaton.Runs

/-
  Changes that keep runs.

  In a state where no value leads to two targets the target is the one of any
  transition that reads the value (`State.Consistent.next?_eq_some_iff`), so a
  run only depends on which transitions there are; where the labels of a state
  are pairwise separate this is so. Taking transitions away takes reached states
  away and adds none (`Reached.of_filterTransitions`). Pruning only takes away
  what no accepted text needs (`run_prune`), also if more is taken away after it
  (`run_filterTransitions_prune`).
-/

namespace PositionAutomata

/-- No value is in the ranges of two transitions. -/
def State.Separated (s : State) : Prop :=
  s.transitions.Pairwise fun t u => t.range.intersects u.range = false

/-- No value is in the ranges of two transitions with different targets. -/
def State.Consistent (s : State) : Prop :=
  ∀ t ∈ s.transitions, ∀ u ∈ s.transitions, t.target ≠ u.target →
    t.range.intersects u.range = false

instance : DecidablePred State.Separated := fun s =>
  inferInstanceAs (Decidable (s.transitions.Pairwise fun t u => t.range.intersects u.range = false))

instance : DecidablePred State.Consistent := fun s =>
  inferInstanceAs (Decidable (∀ t ∈ s.transitions, ∀ u ∈ s.transitions, t.target ≠ u.target →
    t.range.intersects u.range = false))

theorem State.Separated.consistent {s : State} (hs : s.Separated) : s.Consistent := by
  have hsymm : Std.Symm fun t u : Transition => t.range.intersects u.range = false :=
    ⟨fun t u h => by rwa [Range.intersects, Bool.and_comm] at h⟩
  intro t ht u hu hne
  exact List.Pairwise.forall hs ht hu fun h => hne (congrArg Transition.target h)

/-- Where no value is in two ranges, one transition at most has it. -/
theorem State.Separated.countP_contains_le_one {s : State} (hs : s.Separated) (c : Nat) :
    s.transitions.countP (·.range.contains c) ≤ 1 := by
  rw [State.Separated] at hs
  generalize s.transitions = ts at hs ⊢
  induction ts with
  | nil => exact Nat.zero_le 1
  | cons t ts ih =>
    obtain ⟨ht, hts⟩ := List.pairwise_cons.mp hs
    by_cases hc : t.range.contains c = true
    · have hnone : ts.countP (·.range.contains c) = 0 := by
        rw [List.countP_eq_zero]
        intro u hu huc
        have hshared := Range.intersects_iff.mpr ⟨c, hc, huc⟩
        rw [ht u hu] at hshared
        exact absurd hshared (by simp)
      rw [List.countP_cons, if_pos hc, hnone]
    · rw [List.countP_cons, if_neg hc]
      exact ih hts

/-- A transition with this range, taken after `i` characters of a text, leads to offset `j`: an
anchor holds there, or the next character is read. -/
def Range.Takes (r : Range) (text : List Char) (i j : Nat) : Prop :=
  (r.holdsAt text.toArray i = true ∧ j = i) ∨
    (r.isAnchor = false ∧ j = i + 1 ∧ ∃ c, text[i]? = some c ∧ r.contains c.toNat = true)

theorem State.exists_of_next? {s : State} {c : Nat} {r : StateId} (h : s.next? c = some r) :
    ∃ t ∈ s.transitions, t.range.isAnchor = false ∧ t.range.contains c = true ∧ t.target = r := by
  obtain ⟨t, ht, rfl⟩ := Option.map_eq_some_iff.mp h
  have hread := List.find?_some ht
  simp only [Bool.and_eq_true, Bool.not_eq_true'] at hread
  exact ⟨t, List.mem_of_find?_eq_some ht, hread.1, hread.2, rfl⟩

/-- Where no value leads to two targets, whichever transition reads a value says where it leads. -/
theorem State.Consistent.next?_eq_some_iff {s : State} (hs : s.Consistent) {c : Nat} {r : StateId} :
    s.next? c = some r ↔
      ∃ t ∈ s.transitions, t.range.isAnchor = false ∧ t.range.contains c = true ∧ t.target = r := by
  refine ⟨State.exists_of_next?, ?_⟩
  intro h
  obtain ⟨t, ht, ha, hc, rfl⟩ := h
  -- Some transition is found since `t` reads the value, and it shares the value with `t`.
  cases hn : s.next? c with
  | none =>
    rw [State.next?, Option.map_eq_none_iff, List.find?_eq_none] at hn
    exact absurd (hn t ht) (by simp [ha, hc])
  | some r =>
    obtain ⟨u, hu, _, huc, rfl⟩ := State.exists_of_next? hn
    by_contra hne
    have hdisjoint := hs t ht u hu fun h => hne (congrArg some h.symm)
    rw [Range.intersects_iff.mpr ⟨c, hc, huc⟩] at hdisjoint
    exact absurd hdisjoint (by simp)

namespace Automaton

/-- No state has two transitions with a value in common. -/
def Separated (a : Automaton) : Prop := ∀ q s, a.get? q = some s → s.Separated

/-- In no state a value leads to two targets. -/
def Consistent (a : Automaton) : Prop := ∀ q s, a.get? q = some s → s.Consistent

variable {a : Automaton} {text : List Char}

theorem forall_get?_iff {p : State → Prop} :
    (∀ q s, a.get? q = some s → p s) ↔ ∀ s ∈ a.states, p s := by
  refine ⟨fun h s hs => ?_, fun h _ s hs => h s (Array.mem_of_getElem? hs)⟩
  obtain ⟨q, hq⟩ := Array.mem_iff_getElem?.mp hs
  exact h q s hq

theorem consistent_iff : a.Consistent ↔ ∀ s ∈ a.states, s.Consistent := forall_get?_iff

instance : DecidablePred Consistent := fun _ => decidable_of_iff _ consistent_iff.symm

theorem separated_iff : a.Separated ↔ ∀ s ∈ a.states, s.Separated := forall_get?_iff

instance : DecidablePred Separated := fun _ => decidable_of_iff _ separated_iff.symm

theorem Separated.consistent (hsep : a.Separated) : a.Consistent := fun q s hs =>
  (hsep q s hs).consistent

theorem mem_successors {q r : StateId} :
    r ∈ a.successors q ↔ ∃ s, a.get? q = some s ∧ ∃ t ∈ s.transitions, t.target = r := by
  rw [successors]
  cases a.get? q with
  | none => simp
  | some s => simp [State.successors]

theorem wellFormed_iff :
    a.WellFormed ↔ a.start < a.size ∧ ∀ s ∈ a.states, ∀ t ∈ s.transitions, t.target < a.size := by
  refine and_congr_right fun _ => ⟨fun h s hs t ht => ?_, fun h q r hr => ?_⟩
  · obtain ⟨q, hq⟩ := Array.mem_iff_getElem?.mp hs
    exact h q t.target (mem_successors.mpr ⟨s, hq, t, ht, rfl⟩)
  · obtain ⟨s, hs, t, ht, rfl⟩ := mem_successors.mp hr
    exact h s (Array.mem_of_getElem? hs) t ht

instance : DecidablePred WellFormed := fun _ => decidable_of_iff _ wellFormed_iff.symm

theorem Reached.step (hcon : a.Consistent) {i j : Nat} {q : StateId} {s : State} {t : Transition}
    (h : a.Reached text i q) (hg : a.get? q = some s) (ht : t ∈ s.transitions)
    (hj : t.range.Takes text i j) (hlt : t.target < a.size) : a.Reached text j t.target := by
  rcases hj with ⟨hh, rfl⟩ | ⟨ha, rfl, c, hc, hr⟩
  · exact .anchor h hg ht hh hlt
  · exact .read h hg hc ((hcon q s hg).next?_eq_some_iff.mpr ⟨t, ht, ha, hr, rfl⟩) hlt

/-- What holds at the start and is kept by every transition taken holds of all reached states. -/
theorem Reached.step_induction {motive : Nat → StateId → Prop}
    (start : a.start < a.size → motive 0 a.start)
    (step : ∀ i j q s t, a.Reached text i q → motive i q → a.get? q = some s →
      t ∈ s.transitions → t.range.Takes text i j → t.target < a.size → motive j t.target)
    {i : Nat} {q : StateId} (h : a.Reached text i q) : motive i q := by
  induction h with
  | start h => exact start h
  | anchor hq hg ht hh hlt ih => exact step _ _ _ _ _ hq ih hg ht (.inl ⟨hh, rfl⟩) hlt
  | read hq hg hc hn hlt ih =>
    obtain ⟨t, ht, ha, hr, rfl⟩ := State.exists_of_next? hn
    exact step _ _ _ _ t hq ih hg ht (.inr ⟨ha, rfl, _, hc, hr⟩) hlt

/-! ## Fewer transitions -/

@[simp] theorem get?_filterTransitions (keep : StateId → Transition → Bool) (q : StateId) :
    (a.filterTransitions keep).get? q =
      (a.get? q).map fun s => { s with transitions := s.transitions.filter (keep q) } := by
  simp [filterTransitions, get?]

@[simp] theorem size_filterTransitions (keep : StateId → Transition → Bool) :
    (a.filterTransitions keep).size = a.size := by
  simp [filterTransitions, size]

@[simp] theorem start_filterTransitions (keep : StateId → Transition → Bool) :
    (a.filterTransitions keep).start = a.start := rfl

@[simp] theorem accept_filterTransitions (keep : StateId → Transition → Bool) (q : StateId) :
    (a.filterTransitions keep).accept q = a.accept q := by
  rw [accept, accept, get?_filterTransitions]
  cases a.get? q <;> rfl

theorem filterTransitions_filterTransitions (keep keep' : StateId → Transition → Bool) :
    (a.filterTransitions keep).filterTransitions keep' =
      a.filterTransitions fun q t => keep q t && keep' q t := by
  simp only [filterTransitions, Array.mapIdx_mapIdx, Function.comp_def, List.filter_filter,
    Bool.and_comm]

theorem filterTransitions_comm (keep keep' : StateId → Transition → Bool) :
    (a.filterTransitions keep).filterTransitions keep' =
      (a.filterTransitions keep').filterTransitions keep := by
  simp only [filterTransitions_filterTransitions, Bool.and_comm]

theorem filterTransitions_true (a : Automaton) : a.filterTransitions (fun _ _ => true) = a := by
  have hstates : (a.filterTransitions fun _ _ => true).states = a.states := by
    apply Array.ext (by simp [filterTransitions])
    intro i _ _
    simp only [filterTransitions, Array.getElem_mapIdx]
    rw [List.filter_eq_self.mpr fun _ _ => rfl]
  exact congrArg (Automaton.mk · a.start) hstates

/-- Only the transitions of states that there are are looked at. -/
theorem filterTransitions_congr {keep keep' : StateId → Transition → Bool}
    (h : ∀ q < a.size, ∀ t, keep q t = keep' q t) :
    a.filterTransitions keep = a.filterTransitions keep' := by
  have hstates : (a.filterTransitions keep).states = (a.filterTransitions keep').states := by
    apply Array.ext (by simp [filterTransitions])
    intro q hq _
    have hq : q < a.size := by simpa [filterTransitions, size] using hq
    have hkeep : keep q = keep' q := funext (h q hq)
    simp only [filterTransitions, Array.getElem_mapIdx, hkeep]
  exact congrArg (Automaton.mk · a.start) hstates

theorem Separated.filterTransitions (hsep : a.Separated) (keep : StateId → Transition → Bool) :
    (a.filterTransitions keep).Separated := by
  intro q s hs
  rw [get?_filterTransitions] at hs
  obtain ⟨u, hu, rfl⟩ := Option.map_eq_some_iff.mp hs
  exact (hsep q u hu).sublist List.filter_sublist

theorem WellFormed.filterTransitions (wf : a.WellFormed) (keep : StateId → Transition → Bool) :
    (a.filterTransitions keep).WellFormed := by
  refine ⟨by simpa using wf.1, fun q r hr => ?_⟩
  obtain ⟨s, hs, t, ht, rfl⟩ := mem_successors.mp hr
  rw [get?_filterTransitions] at hs
  obtain ⟨u, hu, rfl⟩ := Option.map_eq_some_iff.mp hs
  rw [size_filterTransitions]
  exact wf.2 q t.target (mem_successors.mpr ⟨u, hu, t, (List.mem_filter.mp ht).1, rfl⟩)

/-- A transition that is kept leads on as before. -/
theorem Reached.step_filterTransitions (hsep : a.Separated) {keep : StateId → Transition → Bool}
    {i j : Nat} {q : StateId} {s : State} {t : Transition}
    (h : (a.filterTransitions keep).Reached text i q) (hg : a.get? q = some s)
    (ht : t ∈ s.transitions) (hk : keep q t = true) (hj : t.range.Takes text i j)
    (hlt : t.target < a.size) : (a.filterTransitions keep).Reached text j t.target := by
  have hg' : (a.filterTransitions keep).get? q =
      some { s with transitions := s.transitions.filter (keep q) } := by
    rw [get?_filterTransitions, hg]
    rfl
  exact h.step (hsep.filterTransitions keep).consistent hg' (List.mem_filter.mpr ⟨ht, hk⟩) hj
    (by simpa using hlt)

theorem Reached.of_filterTransitions (hsep : a.Separated) {keep : StateId → Transition → Bool}
    {i : Nat} {q : StateId} (h : (a.filterTransitions keep).Reached text i q) :
    a.Reached text i q := by
  refine Reached.step_induction (motive := fun i q => a.Reached text i q) (fun h => ?_)
    (fun i j q s t _ ih hg ht hj hlt => ?_) h
  · exact .start (by simpa using h)
  · rw [get?_filterTransitions] at hg
    obtain ⟨u, hu, rfl⟩ := Option.map_eq_some_iff.mp hg
    exact ih.step hsep.consistent hu (List.mem_filter.mp ht).1 hj (by simpa using hlt)

/-! ## Dead transitions -/

theorem mem_live_of_accepting {q : StateId} (hlt : q < a.size) (h : a.isAccepting q = true) :
    q ∈ a.live := by
  rw [live, Graph.mem_reachable]
  refine ⟨q, ?_, .refl (by simpa [reverseGraph] using hlt)⟩
  rw [acceptingStates, List.mem_filter, List.mem_range]
  exact ⟨hlt, h⟩

theorem mem_live_of_successor {q r : StateId} (hlt : q < a.size) (hr : r ∈ a.live)
    (h : r ∈ a.successors q) : q ∈ a.live := by
  rw [live, Graph.mem_reachable] at hr ⊢
  obtain ⟨f, hf, hreach⟩ := hr
  have hrlt : r < a.size := by simpa [reverseGraph] using hreach.isNode
  exact ⟨f, hf,
    hreach.tail (mem_next_reverseGraph.mpr ⟨hrlt, h⟩) (by simpa [reverseGraph] using hlt)⟩

theorem prune_eq_filterTransitions (a : Automaton) :
    a.prune.2 = a.filterTransitions fun _ t => decide (t.target ∈ a.live) := by
  show a.filterTransitions _ = a.filterTransitions _
  congr 1
  funext _ t
  rw [Std.TreeSet.contains_ofList, List.contains_eq_mem]

/-- States from which an accepting state can be reached are reached as before, also by those
transitions alone that satisfy a test. -/
theorem Reached.prune (hsep : a.Separated) {keep : StateId → Transition → Bool} {i : Nat}
    {q : StateId} (h : (a.filterTransitions keep).Reached text i q) (hq : q ∈ a.live) :
    (a.prune.2.filterTransitions keep).Reached text i q := by
  rw [prune_eq_filterTransitions, filterTransitions_comm]
  have hsep' := hsep.filterTransitions keep
  -- Backwards from a live state all states of the run are live, so no step of it was pruned.
  revert hq
  refine Reached.step_induction (motive := fun i q => q ∈ a.live → Reached _ text i q)
    (fun h _ => ?_) (fun i j q s t hr ih hg ht hj hlt hlive => ?_) h
  · exact .start (by simpa using h)
  · rw [get?_filterTransitions] at hg
    obtain ⟨u, hu, rfl⟩ := Option.map_eq_some_iff.mp hg
    have hsucc : t.target ∈ a.successors q :=
      mem_successors.mpr ⟨u, hu, t, (List.mem_filter.mp ht).1, rfl⟩
    have hq : q ∈ a.live :=
      mem_live_of_successor (by simpa using hr.lt_size) hlive hsucc
    exact (ih hq).step_filterTransitions hsep' (by rw [get?_filterTransitions, hu]; rfl) ht
      (by simpa using hlive) hj hlt

theorem reports_prune (hsep : a.Separated) {keep : StateId → Transition → Bool} {i k : Nat} :
    (a.prune.2.filterTransitions keep).Reports text i k ↔
      (a.filterTransitions keep).Reports text i k := by
  constructor
  · intro h
    obtain ⟨q, hq, hk⟩ := h
    rw [prune_eq_filterTransitions, filterTransitions_comm] at hq hk
    exact ⟨q, hq.of_filterTransitions (hsep.filterTransitions keep), by simpa using hk⟩
  · intro h
    obtain ⟨q, hq, hk⟩ := h
    have hk : a.accept q = some k := by simpa using hk
    have hlive : q ∈ a.live :=
      mem_live_of_accepting (by simpa using hq.lt_size) (by simp [isAccepting, hk])
    refine ⟨q, hq.prune hsep hlive, ?_⟩
    rw [prune_eq_filterTransitions, accept_filterTransitions, accept_filterTransitions]
    exact hk

/-- Removing dead transitions changes no run, also if more transitions are removed after it. -/
theorem run_filterTransitions_prune (hsep : a.Separated) (keep : StateId → Transition → Bool)
    (text : List Char) :
    (a.prune.2.filterTransitions keep).run text = (a.filterTransitions keep).run text :=
  run_congr fun _ => reports_prune hsep

theorem run_prune (hsep : a.Separated) (text : List Char) : a.prune.2.run text = a.run text := by
  have h := run_filterTransitions_prune hsep (fun _ _ => true) text
  rwa [filterTransitions_true, filterTransitions_true] at h

theorem longestMatch_prune (hsep : a.Separated) (text : List Char) :
    a.prune.2.longestMatch text = a.longestMatch text := by
  apply longestMatch_congr
  intro i k
  have h : (a.prune.2.filterTransitions fun _ _ => true).Reports text i k ↔
      (a.filterTransitions fun _ _ => true).Reports text i k := reports_prune hsep
  rwa [filterTransitions_true, filterTransitions_true] at h

end Automaton

end PositionAutomata
