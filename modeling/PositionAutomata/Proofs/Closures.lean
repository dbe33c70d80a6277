import Mathlib
import PositionAutomata.Proofs.Automaton.Grouping
import PositionAutomata.Proofs.Automaton.Renumbering
import PositionAutomata.Proofs.Graph.Preorder
import PositionAutomata.Proofs.Pruning

/-
  Closures turn by turn.

  A search for the states that a state reaches keeps a stack on which a state may
  wait several times, and lists a state when it is taken from the stack, not when
  it is put there (`Search.turn`). Whatever waits below, the states on top of the
  stack are worked off in the recursive depth-first order, and each turn is paid
  for by a state that waits or by a transition (`Search.exists_turns`). So the
  search ends, and ends with the closure, which lists the states that are reached
  in that order (`closure_in_recursive_order`).
-/

namespace PositionAutomata.Automaton

variable {a : Automaton} {q : StateId}

/-- The number of transitions that leave some states. -/
def outgoing (a : Automaton) (qs : List StateId) : Nat :=
  (qs.map fun q => (a.successors q).length).sum

theorem outgoing_append (qs rs : List StateId) :
    a.outgoing (qs ++ rs) = a.outgoing qs + a.outgoing rs := by
  rw [outgoing, List.map_append, List.sum_append, ← outgoing, ← outgoing]

theorem outgoing_cons (q : StateId) (qs : List StateId) :
    a.outgoing (q :: qs) = (a.successors q).length + a.outgoing qs := by
  rw [outgoing, List.map_cons, List.sum_cons, ← outgoing]

theorem outgoing_range_size (a : Automaton) :
    a.outgoing (List.range a.size) = a.transitionCount := by
  have hlengths : (List.range a.size).map (fun q => (a.successors q).length) =
      a.states.toList.map fun s => s.transitions.length := by
    apply List.ext_getElem
    · simp [size]
    · intro i _ hi
      have hlt : i < a.states.toList.length := by simpa using hi
      have hget : a.get? i = some a.states.toList[i] := by simp [get?]
      simp [successors, hget, State.successors]
  rw [outgoing, hlengths, transitionCount_eq_length, List.length_flatMap]

/-- Different states have no more transitions than the automaton. -/
theorem outgoing_le_transitionCount {qs : List StateId} (hnd : qs.Nodup)
    (hlt : ∀ q ∈ qs, q < a.size) : a.outgoing qs ≤ a.transitionCount := by
  obtain ⟨rs, hperm, hsub⟩ := hnd.subperm fun q hq => List.mem_range.mpr (hlt q hq)
  calc a.outgoing qs
    _ = a.outgoing rs := ((hperm.map _).sum_eq).symm
    _ ≤ a.outgoing (List.range a.size) :=
      (hsub.map _).sum_le_sum fun _ _ => Nat.zero_le _
    _ = a.transitionCount := a.outgoing_range_size

/-! ## Turns -/

/-- A search under way: the states that wait, the next one first, and those that are listed. -/
structure Search where
  waiting : List StateId
  listed : List StateId
  deriving DecidableEq

namespace Search

/-- The search from a state, before its first turn. A number without a state does not wait. -/
def start (a : Automaton) (q : StateId) : Search := ⟨if q < a.size then [q] else [], []⟩

/-- Takes the state that waits first. Unless it is listed, it is listed now, and the targets of its
transitions that are not listed wait before all others, in their order. -/
def turn (a : Automaton) (s : Search) : Search :=
  match s.waiting with
  | [] => s
  | q :: rest =>
    if q ∈ s.listed then { s with waiting := rest }
    else
      let listed := s.listed ++ [q]
      ⟨(a.successors q).filter (· ∉ listed) ++ rest, listed⟩

theorem turn_listed {rest listed : List StateId} (h : q ∈ listed) :
    turn a ⟨q :: rest, listed⟩ = ⟨rest, listed⟩ := if_pos h

theorem turn_new {rest listed : List StateId} (h : q ∉ listed) :
    turn a ⟨q :: rest, listed⟩ =
      ⟨(a.successors q).filter (· ∉ listed ++ [q]) ++ rest, listed ++ [q]⟩ := if_neg h

/-- The states on top of the stack are worked off in the recursive order, and what waits below them
is left as it is. A turn takes a state off that was on top or that a transition of a listed state
has put there. Of the states on top, some that are known to be listed may have been left out. -/
theorem exists_turns (ht : ∀ p, ∀ r ∈ a.successors p, r < a.size)
    (before top : List StateId) : ∀ known listed rest : List StateId, known ⊆ before →
      (∀ p, p ∈ before ↔ p ∈ listed) → (∀ p ∈ top, p < a.size) →
      ∃ n ≤ top.length + a.outgoing (a.graph.preorder before top),
        (turn a)^[n] ⟨top.filter (· ∉ known) ++ rest, listed⟩ =
          ⟨rest, listed ++ a.graph.preorder before top⟩ := by
  induction before, top using Graph.preorder_induction (g := a.graph) with
  | nil before =>
    intro _ listed rest _ _ _
    exact ⟨0, Nat.zero_le _, by rw [Graph.preorder_nil, List.append_nil]; rfl⟩
  | visit before q top hn hq ihbelow ihrest =>
    intro known listed rest hknown hlisted hlt
    have hnew : q ∉ listed := fun hm => hq ((hlisted q).mpr hm)
    have hkept : q ∉ known := fun hm => hq (hknown hm)
    have hbefore : ∀ p, p ∈ q :: before ↔ p ∈ listed ++ [q] := by
      intro p
      rw [List.mem_append, List.mem_singleton, List.mem_cons, hlisted p, or_comm]
    have hnext : a.graph.next q = a.successors q := rfl
    rw [Graph.preorder_visit hn hq, List.filter_cons_of_pos (by simpa using hkept)]
    rw [hnext] at ihbelow ihrest ⊢
    generalize a.graph.preorder (q :: before) (a.successors q) = below at ihbelow ihrest ⊢
    obtain ⟨m, hm, hbelow⟩ := ihbelow (listed ++ [q]) (listed ++ [q])
      (top.filter (· ∉ known) ++ rest) (fun p hp => (hbefore p).mpr hp) hbefore (ht q)
    obtain ⟨n, hn, hrest⟩ := ihrest known (listed ++ [q] ++ below) rest
      (fun p hp => List.mem_append_right _ (List.mem_cons_of_mem _ (hknown hp)))
      (fun p => by rw [List.mem_append, List.mem_append, hbefore p, or_comm])
      fun p hp => hlt p (List.mem_cons_of_mem _ hp)
    refine ⟨n + m + 1, ?_, ?_⟩
    · rw [List.cons_append, outgoing_cons, outgoing_append, List.length_cons]
      omega
    · rw [List.cons_append, Function.iterate_succ_apply, turn_new hnew,
        Function.iterate_add_apply, hbelow, hrest]
      simp
  | skip before q top hskip ih =>
    intro known listed rest hknown hlisted hlt
    have hq : q ∈ listed := by
      refine (hlisted q).mp (Decidable.byContradiction fun hm => hskip ⟨?_, hm⟩)
      simpa [graph] using hlt q List.mem_cons_self
    obtain ⟨n, hn, hturns⟩ := ih known listed rest hknown hlisted
      fun p hp => hlt p (List.mem_cons_of_mem _ hp)
    rw [Graph.preorder_skip hskip, List.filter_cons, List.length_cons]
    split
    · refine ⟨n + 1, by omega, ?_⟩
      rw [List.cons_append, Function.iterate_succ_apply, turn_listed hq, hturns]
    · exact ⟨n, by omega, hturns⟩

end Search

/-! ## Closures -/

theorem closure_eq_preorder (a : Automaton) (q : StateId) :
    a.closure q = a.graph.preorder [] [q] :=
  a.graph.reachable_eq_preorder [q]

theorem lt_size_of_mem_closure {r : StateId} (h : r ∈ a.closure q) : r < a.size := by
  simpa [graph] using (mem_closure_iff.mp h).isNode

theorem closure_of_size_le (h : a.size ≤ q) : a.closure q = [] := by
  have hn : ¬ (a.graph.isNode q = true ∧ q ∉ []) := by simpa [graph] using h
  rw [closure_eq_preorder, Graph.preorder_skip hn, Graph.preorder_nil]

/-- The search from a state ends with its closure, after at most one turn and one more for each
transition. -/
theorem exists_turns_closure (ht : ∀ p, ∀ r ∈ a.successors p, r < a.size) (q : StateId) :
    ∃ n ≤ 1 + a.transitionCount, (Search.turn a)^[n] (.start a q) = ⟨[], a.closure q⟩ := by
  rw [Search.start]
  split
  next hq =>
    obtain ⟨n, hn, hturns⟩ := Search.exists_turns ht [] [q] [] [] []
      (List.nil_subset _) (fun _ => Iff.rfl) (List.forall_mem_singleton.mpr hq)
    rw [← closure_eq_preorder] at hn hturns
    have hle := outgoing_le_transitionCount (Graph.nodup_reachable _ _)
      fun r (hr : r ∈ a.closure q) => lt_size_of_mem_closure hr
    exact ⟨n, Nat.le_trans hn (Nat.add_le_add_left hle 1), by simpa using hturns⟩
  next hq => exact ⟨0, Nat.zero_le _, by rw [closure_of_size_le (Nat.not_lt.mp hq)]; rfl⟩

/-- Where targets exist, every way along transitions goes through states. -/
theorem mem_closure_iff_reflTransGen (ht : ∀ p, ∀ r ∈ a.successors p, r < a.size) {r : StateId} :
    r ∈ a.closure q ↔
      q < a.size ∧ Relation.ReflTransGen (fun p p' => p' ∈ a.successors p) q r := by
  rw [mem_closure_iff]
  constructor
  · intro h
    induction h with
    | refl hn => exact ⟨by simpa [graph] using hn, .refl⟩
    | tail _ hstep _ ih => exact ⟨ih.1, ih.2.tail hstep⟩
  · rintro ⟨hq, h⟩
    induction h with
    | refl => exact .refl (by simpa [graph] using hq)
    | @tail p p' _ hstep ih => exact ih.tail hstep (by simpa [graph] using ht p p' hstep)

theorem closure_congr {b : Automaton} (hsize : b.size = a.size)
    (h : ∀ p, State.firsts (b.successors p) = State.firsts (a.successors p)) (q : StateId) :
    b.closure q = a.closure q := by
  refine Graph.reachable_congr (fun p => ?_) (fun p => ?_) [q]
  · simp [graph, hsize]
  · have hfirsts := h p
    rwa [State.firsts_eq_eraseDups, State.firsts_eq_eraseDups] at hfirsts

/-- Where every transition leads to a state, the search for what a state reaches ends with the
closure, after at most one turn and one more for each transition. The closure lists the states to
which a way along transitions leads, each once, in the order of the recursive search that takes
transitions as they are stored; for an unknown state it is empty. Which states come in which order
only depends on the order in which the targets of each state first appear. -/
theorem closure_in_recursive_order (ht : ∀ p, ∀ r ∈ a.successors p, r < a.size) (q : StateId) :
    (∃ n ≤ 1 + a.transitionCount, (Search.turn a)^[n] (.start a q) = ⟨[], a.closure q⟩) ∧
      (∀ r, r ∈ a.closure q ↔
        q < a.size ∧ Relation.ReflTransGen (fun p p' => p' ∈ a.successors p) q r) ∧
      (a.closure q).Nodup ∧ a.closure q = a.graph.preorder [] [q] ∧
      (a.size ≤ q → a.closure q = []) ∧
      ∀ b : Automaton, b.size = a.size →
        (∀ p, State.firsts (b.successors p) = State.firsts (a.successors p)) →
        b.closure q = a.closure q :=
  ⟨exists_turns_closure ht q, fun _ => mem_closure_iff_reflTransGen ht,
    Graph.nodup_reachable _ _, closure_eq_preorder a q, closure_of_size_le,
    fun _ hsize h => closure_congr hsize h q⟩

/-- The third state is reached from the first one, but also from the second one, which is searched
before; all states but the last are on cycles. -/
def shortcuts : Automaton where
  states := #[
    ⟨[⟨.single 0x61, 1⟩, ⟨.single 0x62, 2⟩, ⟨.single 0x63, 1⟩], none, []⟩,
    ⟨[⟨.single 0x61, 2⟩, ⟨.single 0x62, 3⟩, ⟨.single 0x63, 0⟩], none, []⟩,
    ⟨[⟨.single 0x61, 0⟩], some 0, []⟩,
    ⟨[⟨.single 0x61, 3⟩, ⟨.single 0x62, 1⟩], some 1, []⟩,
    ⟨[⟨.single 0x61, 0⟩], none, []⟩]
  start := 4

/-- The same targets in the same order, some of them more or less often. -/
def shortcutsAgain : Automaton where
  states := #[
    ⟨[⟨.single 0x78, 1⟩, ⟨.single 0x79, 1⟩, ⟨.single 0x7a, 2⟩], some 7, []⟩,
    ⟨[⟨.single 0x78, 2⟩, ⟨.single 0x79, 3⟩, ⟨.single 0x7a, 2⟩, ⟨.single 0x77, 0⟩], none, []⟩,
    ⟨[⟨.single lineStart, 0⟩, ⟨.single textEnd, 0⟩], none, []⟩,
    ⟨[⟨.single 0x78, 3⟩, ⟨.single 0x79, 1⟩, ⟨.single 0x7a, 3⟩], none, []⟩,
    ⟨[⟨.single 0x78, 0⟩], none, []⟩]
  start := 0

theorem shortcuts_closure_in_recursive_order :
    (∀ p, ∀ r ∈ shortcuts.successors p, r < shortcuts.size) ∧
      shortcuts.closure 0 = [0, 1, 2, 3] ∧ shortcuts.graph.preorder [] [0] = [0, 1, 2, 3] ∧
      (∃ n ≤ 11, (Search.turn shortcuts)^[n] ⟨[0], []⟩ = ⟨[], [0, 1, 2, 3]⟩) ∧
      Relation.ReflTransGen (fun p p' => p' ∈ shortcuts.successors p) 0 3 ∧
      ¬ Relation.ReflTransGen (fun p p' => p' ∈ shortcuts.successors p) 0 4 ∧
      shortcuts.closure 5 = [] ∧ shortcutsAgain.closure 0 = [0, 1, 2, 3] := by
  have wf : shortcuts.WellFormed := by decide
  have hclosure : shortcuts.closure 0 = [0, 1, 2, 3] := by cbv
  have hfirsts : ∀ p, State.firsts (shortcutsAgain.successors p) =
      State.firsts (shortcuts.successors p) := by
    rintro (_ | _ | _ | _ | _ | p) <;> rfl
  obtain ⟨hturns, hmem, _, horder, _, hcongr⟩ := closure_in_recursive_order wf.2 0
  obtain ⟨_, _, _, _, hunknown, _⟩ := closure_in_recursive_order wf.2 5
  rw [hclosure] at hturns hmem horder hcongr
  exact ⟨wf.2, hclosure, horder.symm, hturns, ((hmem 3).mp (by decide)).2,
    fun h => absurd ((hmem 4).mpr ⟨by decide, h⟩) (by decide), hunknown (by decide),
    hcongr _ rfl hfirsts⟩

end PositionAutomata.Automaton
