import PositionAutomata.Automaton.Basic
import PositionAutomata.Graph
import PositionAutomata.Index
import PositionAutomata.Table

/-
  Reachable states, dead transitions and renumbering.

  `Automaton.closure` lists the states that can be reached from a state in
  depth-first order. `Automaton.prune` removes the transitions to states from
  which no accepting state can be reached. `Automaton.retainReachable` drops
  the states that the start does not reach and numbers the others in the order
  of the closure.
-/

namespace PositionAutomata.Automaton

/-- There are finitely many numbers of states. -/
theorem exists_nodes (a : Automaton) :
    ∃ nodes : List StateId, ∀ q, decide (q < a.size) = true → q ∈ nodes :=
  ⟨List.range a.size, fun q h => by simpa using h⟩

/-- The states with their transitions. -/
def graph (a : Automaton) : Graph StateId where
  isNode q := q < a.size
  next := a.successors
  finite := a.exists_nodes

/-- The transitions, each as its target and the state that it leaves. -/
def reversed (a : Automaton) : List (StateId × StateId) :=
  (List.range a.size).flatMap fun q => (a.successors q).map (·, q)

/-- The states that lead to each state. -/
def predecessors (a : Automaton) : Array (List StateId) :=
  Table.gather a.size [] (fun qs q => q :: qs) a.reversed

/-- The states with their transitions reversed. -/
def reverseGraph (a : Automaton) : Graph StateId :=
  let table := a.predecessors
  { isNode := fun q => q < a.size
    next := fun q => table[q]?.getD []
    finite := a.exists_nodes }

theorem mem_next_reverseGraph {a : Automaton} {p q : StateId} :
    p ∈ a.reverseGraph.next q ↔ q < a.size ∧ q ∈ a.successors p := by
  have fold : ∀ (xs : List (StateId × StateId)) (ps : List StateId),
      p ∈ xs.foldl (fun ps x => x.2 :: ps) ps ↔ p ∈ ps ∨ ∃ x ∈ xs, x.2 = p := by
    intro xs
    induction xs with
    | nil => simp
    | cons x xs ih =>
      intro ps
      rw [List.foldl_cons, ih]
      grind
  have size : q ∈ a.successors p → p < a.size := by
    intro h
    refine Nat.lt_of_not_le fun hle => ?_
    simp [successors, get?, Array.getElem?_eq_none (show a.states.size ≤ p from hle)] at h
  simp only [reverseGraph, predecessors, Table.getElem?_gather]
  split
  next h =>
    simp only [Option.getD_some, fold, reversed, List.mem_filter, List.mem_flatMap, List.mem_range,
      List.mem_map, decide_eq_true_eq, List.not_mem_nil, false_or]
    constructor
    · rintro ⟨x, ⟨⟨r, _, t, ht, rfl⟩, rfl⟩, rfl⟩
      exact ⟨h, ht⟩
    · rintro ⟨_, hq⟩
      exact ⟨(q, p), ⟨⟨p, size hq, q, hq, rfl⟩, rfl⟩, rfl⟩
  next h => simp [h]

/-- The states that can be reached from a state, in depth-first order. -/
def closure (a : Automaton) (q : StateId) : List StateId := a.graph.reachable [q]

/-- The states from which an accepting state can be reached. -/
def live (a : Automaton) : List StateId := a.reverseGraph.reachable a.acceptingStates

/-- Removes the transitions to states that are not live, and answers how many
there were. -/
def prune (a : Automaton) : Nat × Automaton :=
  let live := Std.TreeSet.ofList a.live
  let kept := a.filterTransitions fun _ t => live.contains t.target
  (a.transitionCount - kept.transitionCount, kept)

/-- The rank of a state in the list of an index; a state that is not in the list keeps
its number. -/
def rank (order : Index StateId) (q : StateId) : StateId := (order.get? q).getD q

/-- A state with its targets renumbered. -/
def renumberState (f : StateId → StateId) (s : State) : State :=
  { s with transitions := s.transitions.map fun t => { t with target := f t.target } }

/-- Drops the states that the start does not reach and numbers the others in
the order of the closure. -/
def retainReachable (a : Automaton) : Automaton :=
  let order := a.closure a.start
  let index := Index.ofList order
  ⟨(order.filterMap fun q => (a.get? q).map (renumberState (rank index))).toArray, 0⟩

end PositionAutomata.Automaton
