import Mathlib
import PositionAutomata.Proofs.Automaton.Renumbering
import PositionAutomata.Proofs.Automaton.Traces

/-
  The part of an automaton that its start reaches.

  Dropping the other states and renumbering is a renaming of the graph of moves
  (`renames_moveGraph`): it keeps the order of the transitions, so the search for
  a trace goes the same way (`trace_retainReachable`), and the captures along it
  are the same (`captures_retainReachable`). States that are numbered in the
  order of their closure keep their numbers (`retainReachable_of_closure_eq`), so
  doing it again changes nothing.
-/

namespace PositionAutomata.Automaton

variable {a : Automaton} {text : List Char}

/-! ## States -/

theorem renumberState_congr {f g : StateId → StateId} {s : State}
    (h : ∀ t ∈ s.transitions, f t.target = g t.target) : renumberState f s = renumberState g s := by
  have hmap : s.transitions.map (fun t => { t with target := f t.target }) =
      s.transitions.map fun t => { t with target := g t.target } :=
    List.map_congr_left fun t ht => by rw [h t ht]
  rw [renumberState, renumberState, hmap]

theorem target_mem_order (wf : a.WellFormed) {q : StateId} {s : State} (hq : q ∈ a.order)
    (hs : a.get? q = some s) : ∀ t ∈ s.transitions, t.target ∈ a.order := fun t ht =>
  successor_mem_order wf hq (mem_successors.mpr ⟨s, hs, t, ht, rfl⟩)

/-! ## Moves -/

theorem move?_renumber (f : StateId → StateId) (i : Nat) (t : Transition) :
    move? text.toArray i { t with target := f t.target } =
      (move? text.toArray i t).map (Prod.map id f) := by
  simp only [move?]
  split
  · split <;> rfl
  · split
    · split <;> rfl
    · rfl

theorem transitions_newId {q : StateId} (h : q ∈ a.order) :
    (a.retainReachable.get? (a.newId q)).elim [] State.transitions =
      ((a.get? q).elim [] State.transitions).map fun t => { t with target := a.newId t.target } := by
  rw [get?_newId h]
  cases a.get? q <;> rfl

theorem next_moveGraph_newId {i : Nat} {q : StateId} (h : q ∈ a.order) :
    (a.retainReachable.moveGraph text.toArray).next (i, a.newId q) =
      ((a.moveGraph text.toArray).next (i, q)).map (Prod.map id a.newId) := by
  simp only [moveGraph, transitions_newId h, List.filterMap_map, List.map_filterMap]
  congr 1
  funext t
  exact move?_renumber a.newId i t

/-- Among the states that the start reaches, the moves are renamed. -/
theorem renames_moveGraph (wf : a.WellFormed) (text : List Char) :
    Graph.Renames (a.moveGraph text.toArray) (a.retainReachable.moveGraph text.toArray)
      (Prod.map id a.newId) (fun v => v.1 ≤ text.length ∧ v.2 ∈ a.order) where
  isNode h := ⟨isNode_moveGraph.mpr ⟨h.1, lt_size_of_mem_order h.2⟩,
    isNode_moveGraph.mpr ⟨h.1, newId_lt_size h.2⟩⟩
  next h := next_moveGraph_newId h.2
  closed {v w} h hw := by
    obtain ⟨s, hs, t, ht, htarget, hstep⟩ := mem_next_moveGraph.mp hw
    refine ⟨?_, htarget ▸ target_mem_order wf h.2 hs t ht⟩
    rcases hstep with ⟨_, hj, c, hc, _⟩ | ⟨_, hj, _⟩
    · rw [hj]
      exact (List.getElem?_eq_some_iff.mp hc).1
    · rw [hj]
      exact h.1
  injective {v w} hv hw h := by
    obtain ⟨hfst, hsnd⟩ := Prod.ext_iff.mp h
    exact Prod.ext hfst (newId_injective hv.2 hw.2 hsnd)

/-! ## Matches -/

theorem isGoal_newId {k : Nat} {v : Nat × StateId} (h : v.2 ∈ a.order) :
    a.retainReachable.isGoal text k (Prod.map id a.newId v) = a.isGoal text k v := by
  rw [isGoal, isGoal, Prod.map_fst, Prod.map_snd, accept_newId h, id_eq]

/-- A text has the same trace after renumbering, through the new numbers of its states. -/
theorem trace_retainReachable (wf : a.WellFormed) (text : List Char) :
    a.retainReachable.trace text = (a.trace text).map (List.map (Prod.map id a.newId)) := by
  have hstart : (0, a.retainReachable.start) = Prod.map id a.newId (0, a.start) := by
    rw [Prod.map_apply, newId_of_getElem? (start_mem_head? wf.1)]
    rfl
  rw [trace_eq, trace_eq, run_retainReachable wf, hstart]
  cases a.run text with
  | none => rfl
  | some k =>
    exact (renames_moveGraph wf text).findPath (fun _ h => isGoal_newId h.2)
      ⟨Nat.zero_le _, start_mem_order wf.1⟩

theorem mem_order_of_mem_trace (wf : a.WellFormed) {path : List (Nat × StateId)}
    (h : a.trace text = some path) {v : Nat × StateId} (hv : v ∈ path) : v.2 ∈ a.order := by
  obtain ⟨_, _, hpath⟩ := isPath_of_trace h
  have hreach := hpath.reaches_of_mem v hv
  clear h hv hpath
  induction hreach with
  | refl _ => exact start_mem_order wf.1
  | tail _ hnext _ ih =>
    obtain ⟨s, hs, t, ht, htarget, _⟩ := mem_next_moveGraph.mp hnext
    exact htarget ▸ target_mem_order wf ih hs t ht

theorem captures_retainReachable (wf : a.WellFormed) (text : List Char) :
    a.retainReachable.captures text = a.captures text := by
  rw [captures, captures, trace_retainReachable wf]
  cases h : a.trace text with
  | none => rfl
  | some path =>
    simp only [Option.map_some, Option.some.injEq, List.flatMap_map]
    refine List.flatMap_congr fun v hv => ?_
    rw [Prod.map_snd, get?_newId (mem_order_of_mem_trace wf h hv)]
    cases a.get? v.2 <;> rfl

/-! ## Renumbering again -/

/-- An automaton whose states are all reached, and numbered in that order, stays as it is. -/
theorem retainReachable_of_closure_eq (wf : a.WellFormed) (hstart : a.start = 0)
    (h : a.closure 0 = List.range a.size) : a.retainReachable = a := by
  have horder : a.order = List.range a.size := by rw [order, hstart, h]
  have hsize : a.retainReachable.size = a.size := by
    rw [size_retainReachable, horder, List.length_range]
  have hget : ∀ q, a.retainReachable.get? q = a.get? q := by
    intro q
    rw [get?_retainReachable, horder]
    rcases Nat.lt_or_ge q a.size with hq | hq
    · obtain ⟨s, hs⟩ := exists_get? hq
      have hmem : q ∈ a.order := by rw [horder, List.mem_range]; exact hq
      rw [List.getElem?_range hq, Option.bind_some, hs, Option.map_some]
      have hid : renumberState a.newId s = renumberState id s := by
        apply renumberState_congr
        intro t ht
        apply newId_of_getElem?
        rw [horder, id, List.getElem?_range (lt_size_of_mem_order (target_mem_order wf hmem hs t ht))]
      rw [hid, renumberState]
      simp
    · rw [List.getElem?_eq_none (by simpa using hq), Option.bind_none]
      exact (Array.getElem?_eq_none hq).symm
  have hstates : a.retainReachable.states = a.states := Array.ext_getElem? hget
  obtain ⟨states, start⟩ := a
  exact congrArg₂ Automaton.mk hstates hstart.symm

theorem retainReachable_retainReachable (wf : a.WellFormed) :
    a.retainReachable.retainReachable = a.retainReachable :=
  retainReachable_of_closure_eq wf.retainReachable rfl (closure_retainReachable wf)

/-- What is left is a copy of the part that the start reaches. Its states are those of the closure
of the start in this order, each with its symbol, its events and its transitions in their order, and
every target is replaced by its place in the closure. They are numbered in the order of their own
closure. Runs, longest matches and captures stay what they were, and traces go through the new
numbers of the same states. Doing it again changes nothing. -/
theorem retainReachable_copies_reachable_part (wf : a.WellFormed) :
    (a.closure a.start).Nodup ∧ a.retainReachable.start = 0 ∧
      a.retainReachable.size = (a.closure a.start).length ∧
      (∀ i q, (a.closure a.start)[i]? = some q → ∃ s, a.get? q = some s ∧
        (∀ t ∈ s.transitions, t.target ∈ a.closure a.start) ∧
        a.retainReachable.get? i = some
          { s with
            transitions := s.transitions.map fun t =>
              { t with target := (a.closure a.start).idxOf t.target } }) ∧
      a.retainReachable.closure 0 = List.range a.retainReachable.size ∧
      (∀ text, a.retainReachable.run text = a.run text ∧
        a.retainReachable.longestMatch text = a.longestMatch text ∧
        a.retainReachable.captures text = a.captures text ∧
        (∀ path, a.trace text = some path → ∀ v ∈ path, v.2 ∈ a.closure a.start) ∧
        a.retainReachable.trace text = (a.trace text).map fun path =>
          path.map fun v => (v.1, (a.closure a.start).idxOf v.2)) ∧
      a.retainReachable.retainReachable = a.retainReachable := by
  refine ⟨nodup_order a, rfl, size_retainReachable, fun i q hq => ?_, closure_retainReachable wf,
    fun text => ⟨run_retainReachable wf text, longestMatch_retainReachable wf text,
      captures_retainReachable wf text, fun path h v hv => mem_order_of_mem_trace wf h hv, ?_⟩,
    retainReachable_retainReachable wf⟩
  · have hmem : q ∈ a.order := List.mem_of_getElem? hq
    obtain ⟨s, hs⟩ := exists_get? (lt_size_of_mem_order hmem)
    have htargets := target_mem_order wf hmem hs
    refine ⟨s, hs, htargets, ?_⟩
    have hplaces : renumberState a.newId s = renumberState (a.order.idxOf ·) s :=
      renumberState_congr fun t ht => newId_eq_idxOf (htargets t ht)
    rw [← newId_of_getElem? hq, get?_newId hmem, hs, Option.map_some, hplaces]
    rfl
  · rw [trace_retainReachable wf]
    cases h : a.trace text with
    | none => rfl
    | some path =>
      refine congrArg some (List.map_congr_left fun v hv => ?_)
      rw [Prod.map_apply', newId_eq_idxOf (mem_order_of_mem_trace wf h hv)]
      rfl

/-- The start is the last state but one. It leads to itself, to the first state and back by way of
the last one, and no state leads to the second one. -/
def scattered : Automaton where
  states := #[
    ⟨[⟨.single textEnd, 4⟩, ⟨.single 0x62, 3⟩], none, [⟨1, false, none⟩]⟩,
    ⟨[⟨.single 0x61, 0⟩, ⟨.single 0x62, 2⟩], some 0, []⟩,
    ⟨[], some 5, []⟩,
    ⟨[⟨.single 0x62, 4⟩, ⟨.single 0x61, 0⟩, ⟨.single 0x63, 3⟩], none, [⟨1, true, none⟩]⟩,
    ⟨[⟨.single 0x61, 3⟩], some 7, []⟩]
  start := 3

theorem retainReachable_scattered :
    scattered.WellFormed ∧ scattered.closure scattered.start = [3, 4, 0] ∧
      scattered.retainReachable.states = #[
        ⟨[⟨.single 0x62, 1⟩, ⟨.single 0x61, 2⟩, ⟨.single 0x63, 0⟩], none, [⟨1, true, none⟩]⟩,
        ⟨[⟨.single 0x61, 0⟩], some 7, []⟩,
        ⟨[⟨.single textEnd, 1⟩, ⟨.single 0x62, 0⟩], none, [⟨1, false, none⟩]⟩] ∧
      scattered.trace ['c', 'a'] = some [(0, 3), (1, 3), (2, 0), (2, 4)] ∧
      scattered.retainReachable.trace ['c', 'a'] = some [(0, 0), (1, 0), (2, 2), (2, 1)] ∧
      scattered.retainReachable.run ['c', 'a'] = some 7 ∧
      scattered.retainReachable.retainReachable = scattered.retainReachable := by
  have wf : scattered.WellFormed := by decide
  have hclosure : scattered.closure scattered.start = [3, 4, 0] := by cbv
  have htrace : scattered.trace ['c', 'a'] = some [(0, 3), (1, 3), (2, 0), (2, 4)] := by cbv
  obtain ⟨_, _, _, _, _, hmatches, hagain⟩ := retainReachable_copies_reachable_part wf
  obtain ⟨hrun, _, _, _, hcopy⟩ := hmatches ['c', 'a']
  refine ⟨wf, hclosure, by cbv, htrace, ?_, ?_, hagain⟩
  · rw [hcopy, htrace, hclosure]
    rfl
  · rw [hrun]
    cbv

end PositionAutomata.Automaton
