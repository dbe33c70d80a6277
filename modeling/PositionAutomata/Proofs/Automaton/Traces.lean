import Mathlib
import PositionAutomata.Automaton.Trace
import PositionAutomata.Proofs.Automaton.Labels
import PositionAutomata.Proofs.Graph.Paths

/-
  Traces of accepted texts.

  A run follows sets of states, a trace looks for one path. Both take the same
  steps (`Automaton.Joins`) as long as no label holds code points and anchors
  at once: then the offsets with states that a run reaches are reached in the
  graph of moves (`reaches_of_reached`), so there is a trace exactly if the text
  is accepted (`exists_trace_iff`). That search meets each offset with each
  state at most once, and the captures are the events along the path
  (`trace_captures_agree_with_run`). Where no value leads to two targets, the
  path conversely only meets states that the run reaches
  (`reached_of_mem_trace`).
-/

namespace PositionAutomata

/-- A range that holds without reading has an anchor, so it has no code points besides. -/
theorem Range.IsUniform.isAnchor_of_holdsAt {r : Range} (hr : r.IsUniform) {text : Array Char} {i : Nat}
    (h : r.holdsAt text i = true) : r.isAnchor = true := by
  have hlast : maxCodepoint < r.last := by
    rw [Range.holdsAt, Bool.or_eq_true, Bool.and_eq_true, Bool.and_eq_true] at h
    rcases h with h | h
    · have hle := (Range.contains_iff.mp h.1).2
      exact Nat.lt_of_lt_of_le (by decide) hle
    · have hle := (Range.contains_iff.mp h.1).2
      exact Nat.lt_of_lt_of_le (by decide) hle
  exact Range.isAnchor_iff.mpr (hr.resolve_left (Nat.not_le.mpr hlast))

instance : DecidablePred State.IsUniform := fun s =>
  inferInstanceAs (Decidable (∀ t ∈ s.transitions, t.range.IsUniform))

namespace Automaton

/-- A transition joins two states with offsets: it reads the character at the first offset and goes
on to the next one, or it is an anchor that holds there and stays. -/
def Joins (a : Automaton) (text : List Char) (v w : Nat × StateId) : Prop :=
  ∃ s, a.get? v.2 = some s ∧ ∃ t ∈ s.transitions, t.target = w.2 ∧
    ((t.range.isAnchor = false ∧ w.1 = v.1 + 1 ∧
        ∃ c, text[v.1]? = some c ∧ t.range.contains c.toNat = true) ∨
      (t.range.isAnchor = true ∧ w.1 = v.1 ∧ t.range.holdsAt text.toArray v.1 = true))

variable {a : Automaton} {text : List Char}

/-! ## Moves -/

theorem move?_eq_some_iff {i : Nat} {t : Transition} {w : Nat × StateId} :
    move? text.toArray i t = some w ↔
      t.target = w.2 ∧
        ((t.range.isAnchor = false ∧ w.1 = i + 1 ∧
            ∃ c, text[i]? = some c ∧ t.range.contains c.toNat = true) ∨
          (t.range.isAnchor = true ∧ w.1 = i ∧ t.range.holdsAt text.toArray i = true)) := by
  obtain ⟨j, q⟩ := w
  rw [move?, List.getElem?_toArray]
  cases ha : t.range.isAnchor with
  | true =>
    rw [if_pos rfl, Option.ite_none_right_eq_some, Option.some.injEq, Prod.mk.injEq]
    constructor
    · rintro ⟨hh, rfl, rfl⟩
      exact ⟨rfl, .inr ⟨rfl, rfl, hh⟩⟩
    · rintro ⟨rfl, ⟨h, _⟩ | ⟨_, rfl, hh⟩⟩
      · cases h
      · exact ⟨hh, rfl, rfl⟩
  | false =>
    cases hc : text[i]? with
    | none => simp
    | some c =>
      dsimp only
      rw [if_neg Bool.false_ne_true, Option.ite_none_right_eq_some, Option.some.injEq,
        Prod.mk.injEq]
      constructor
      · rintro ⟨hr, rfl, rfl⟩
        exact ⟨rfl, .inl ⟨rfl, rfl, c, rfl, hr⟩⟩
      · rintro ⟨rfl, ⟨_, rfl, _, hd, hr⟩ | ⟨h, _⟩⟩
        · cases hd
          exact ⟨hr, rfl, rfl⟩
        · cases h

theorem mem_next_moveGraph {v w : Nat × StateId} :
    w ∈ (a.moveGraph text.toArray).next v ↔ a.Joins text v w := by
  constructor
  · intro h
    obtain ⟨t, ht, h⟩ := List.mem_filterMap.mp h
    obtain ⟨s, hs, ht⟩ := mem_elim_transitions.mp ht
    exact ⟨s, hs, t, ht, move?_eq_some_iff.mp h⟩
  · intro h
    obtain ⟨s, hs, t, ht, h⟩ := h
    exact List.mem_filterMap.mpr
      ⟨t, mem_elim_transitions.mpr ⟨s, hs, ht⟩, move?_eq_some_iff.mpr h⟩

theorem isNode_moveGraph {v : Nat × StateId} :
    (a.moveGraph text.toArray).isNode v = true ↔ v.1 ≤ text.length ∧ v.2 < a.size :=
  Bool.and_eq_true_iff.trans (and_congr decide_eq_true_iff decide_eq_true_iff)

/-- What a run reaches is reached by moves. -/
theorem reaches_of_reached (hlabels : ∀ s ∈ a.states, s.IsUniform) {i : Nat} {q : StateId}
    (h : a.Reached text i q) : (a.moveGraph text.toArray).Reaches (0, a.start) (i, q) := by
  induction h with
  | start hs => exact .refl (isNode_moveGraph.mpr ⟨Nat.zero_le _, hs⟩)
  | anchor hq hg ht hh hlt ih =>
    have hanchor := (hlabels _ (Array.mem_of_getElem? hg) _ ht).isAnchor_of_holdsAt hh
    exact ih.tail (mem_next_moveGraph.mpr ⟨_, hg, _, ht, rfl, .inr ⟨hanchor, rfl, hh⟩⟩)
      (isNode_moveGraph.mpr ⟨hq.le_length, hlt⟩)
  | read hq hg hc hn hlt ih =>
    obtain ⟨t, ht, ha, hr, rfl⟩ := State.exists_of_next? hn
    exact ih.tail (mem_next_moveGraph.mpr ⟨_, hg, t, ht, rfl, .inl ⟨ha, rfl, _, hc, hr⟩⟩)
      (isNode_moveGraph.mpr ⟨(Reached.read hq hg hc hn hlt).le_length, hlt⟩)

/-- Where no value leads to two targets, what moves reach is reached by the run. -/
theorem Consistent.reached (hcon : a.Consistent) {v : Nat × StateId}
    (h : (a.moveGraph text.toArray).Reaches (0, a.start) v) : a.Reached text v.1 v.2 := by
  induction h with
  | refl hn => exact .start (isNode_moveGraph.mp hn).2
  | tail _ hnext hn ih =>
    obtain ⟨s, hg, t, ht, htarget, hstep⟩ := mem_next_moveGraph.mp hnext
    have hlt := (isNode_moveGraph.mp hn).2
    rw [← htarget] at hlt ⊢
    refine ih.step hcon hg ht ?_ hlt
    rcases hstep with ⟨ha, hj, hread⟩ | ⟨_, hj, hh⟩
    · exact .inr ⟨ha, hj, hread⟩
    · exact .inl ⟨hh, hj⟩

/-! ## Traces -/

/-- Whether the search for a trace with the symbol `k` ends: the text is read and the state accepts
with `k`. -/
def isGoal (a : Automaton) (text : List Char) (k : Nat) (v : Nat × StateId) : Bool :=
  v.1 = text.length && a.accept v.2 = some k

theorem trace_eq : a.trace text = (a.run text).bind fun k =>
    (a.moveGraph text.toArray).findPath (0, a.start) (a.isGoal text k) := rfl

/-- A trace is a path of moves to a state with the symbol of the run at the end of the text. -/
theorem isPath_of_trace {path : List (Nat × StateId)} (h : a.trace text = some path) :
    ∃ q, a.accept q = a.run text ∧
      (a.moveGraph text.toArray).IsPath (0, a.start) (text.length, q) path := by
  rw [trace_eq] at h
  obtain ⟨k, hk, hfind⟩ := Option.bind_eq_some_iff.mp h
  obtain ⟨⟨i, q⟩, hgoal, hpath⟩ := Graph.isPath_of_findPath hfind
  simp only [isGoal, Bool.and_eq_true, decide_eq_true_eq] at hgoal
  obtain ⟨rfl, hq⟩ := hgoal
  exact ⟨q, by rw [hq, hk], hpath⟩

/-- There is a trace exactly if the text is accepted. -/
theorem exists_trace_iff (hlabels : ∀ s ∈ a.states, s.IsUniform) :
    (∃ path, a.trace text = some path) ↔ ∃ k, a.run text = some k := by
  constructor
  · intro h
    obtain ⟨path, hpath⟩ := h
    rw [trace_eq] at hpath
    obtain ⟨k, hk, _⟩ := Option.bind_eq_some_iff.mp hpath
    exact ⟨k, hk⟩
  · intro h
    obtain ⟨k, hk⟩ := h
    -- A state that reports the symbol is reached by moves, so the search does not miss it.
    obtain ⟨q, hq, haccept⟩ := (run_eq_some_iff.mp hk).1
    simp only [trace_eq, hk, Option.bind_some]
    apply Graph.exists_findPath_iff.mpr
    refine ⟨(text.length, q), reaches_of_reached hlabels hq, ?_⟩
    simp [isGoal, haccept]

/-- Where no value leads to two targets, the states of a trace are reached by the run. -/
theorem reached_of_mem_trace (hcon : a.Consistent) {path : List (Nat × StateId)}
    (h : a.trace text = some path) : ∀ v ∈ path, a.Reached text v.1 v.2 := by
  obtain ⟨_, _, hpath⟩ := isPath_of_trace h
  exact fun v hv => hcon.reached (hpath.reaches_of_mem v hv)

/-- Offsets grow by one at most along a trace, so each number of characters stands in it. -/
theorem exists_mem_trace {path : List (Nat × StateId)} (h : a.trace text = some path) {i : Nat}
    (hi : i ≤ text.length) : ∃ q, (i, q) ∈ path := by
  obtain ⟨q, _, hpath⟩ := isPath_of_trace h
  -- Along the path all offsets up to the one of its end are met.
  suffices ∀ v, (a.moveGraph text.toArray).IsPath (0, a.start) v path → i ≤ v.1 →
      ∃ q, (i, q) ∈ path from this _ hpath hi
  intro v hv hi
  clear h hpath
  induction hv with
  | start _ =>
    obtain rfl := Nat.le_zero.mp hi
    exact ⟨a.start, List.mem_singleton.mpr rfl⟩
  | @step v w path hv hnext _ ih =>
    obtain ⟨_, _, _, _, _, hstep⟩ := mem_next_moveGraph.mp hnext
    rcases Nat.lt_or_ge v.1 i with hlt | hle
    · have hw : w.1 = i := by omega
      exact ⟨w.2, List.mem_append.mpr (.inr (List.mem_singleton.mpr (by rw [← hw])))⟩
    · obtain ⟨q, hq⟩ := ih hle
      exact ⟨q, List.mem_append_left _ hq⟩

/-! ## Captures -/

/-- The captures list, along the trace, the events of each of its states with the offset. -/
theorem captures_of_trace {path : List (Nat × StateId)} (h : a.trace text = some path) :
    ∃ events, List.Forall₂ (fun v es => ∃ s, a.get? v.2 = some s ∧ es = s.events.map (v.1, ·))
        path events ∧
      a.captures text = some events.flatten := by
  obtain ⟨_, _, hpath⟩ := isPath_of_trace h
  refine ⟨path.map fun v => ((a.get? v.2).elim [] State.events).map (v.1, ·), ?_, ?_⟩
  · rw [List.forall₂_map_right_iff, List.forall₂_same]
    intro v hv
    have hlt := (isNode_moveGraph.mp (hpath.reaches_of_mem v hv).isNode).2
    obtain ⟨s, hs⟩ := exists_get? hlt
    exact ⟨s, hs, by rw [hs]; rfl⟩
  · rw [captures, h, Option.map_some, List.flatMap_def]

/-- The captures hold each event of each state of a trace with the offset. -/
theorem exists_captures {path : List (Nat × StateId)} (h : a.trace text = some path) :
    ∃ es, a.captures text = some es ∧ ∀ {i q s e}, (i, q) ∈ path → a.get? q = some s →
      e ∈ s.events → (i, e) ∈ es := by
  refine ⟨_, by rw [captures, h, Option.map_some], fun hv hs he => ?_⟩
  exact List.mem_flatMap.mpr ⟨_, hv, List.mem_map.mpr ⟨_, by rwa [hs], rfl⟩⟩

/-! ## The search -/

/-- The offsets with states that a search for a trace enters, in order. -/
def visited (a : Automaton) (text : List Char) (goal : Nat × StateId → Bool) :
    List (Nat × StateId) :=
  ((a.moveGraph text.toArray).walk goal [((0, a.start), [])] ∅).map Prod.fst

theorem nodup_visited (goal : Nat × StateId → Bool) : (a.visited text goal).Nodup :=
  (Graph.nodup_walk _ _ _).1

/-- A search enters each offset with each state once at most. -/
theorem length_visited_le (goal : Nat × StateId → Bool) :
    (a.visited text goal).length ≤ (text.length + 1) * a.size := by
  have hnodes : ∀ v, (a.moveGraph text.toArray).isNode v = true →
      v ∈ List.range (text.length + 1) ×ˢ List.range a.size := by
    intro v hv
    obtain ⟨hi, hq⟩ := isNode_moveGraph.mp hv
    exact List.mem_product.mpr ⟨List.mem_range.mpr (Nat.lt_succ_of_le hi), List.mem_range.mpr hq⟩
  calc (a.visited text goal).length
      = ((a.moveGraph text.toArray).walk goal [((0, a.start), [])] ∅).length := List.length_map _
    _ ≤ (List.range (text.length + 1) ×ˢ List.range a.size).length :=
        Graph.length_walk_le hnodes goal _ _
    _ = (text.length + 1) * a.size := by
        rw [List.length_product, List.length_range, List.length_range]

/-- In an automaton without loose ends a search never goes on to a state that does not exist. -/
theorem WellFormed.lt_size_of_joins (wf : a.WellFormed) {v w : Nat × StateId}
    (h : a.Joins text v w) : w.2 < a.size := by
  obtain ⟨s, hs, t, ht, htarget, _⟩ := h
  exact wf.2 v.2 w.2 (mem_successors.mpr ⟨s, hs, t, ht, htarget⟩)

/-- The search of a trace ends, after at most one visit for each offset with each state, and only
meets states that exist. There is a trace exactly if the text is accepted. It leads from the start,
by one transition after the other, to the end of the text in a state with the symbol of the run, and
the captures are the events along it. -/
theorem trace_captures_agree_with_run (wf : a.WellFormed) (hlabels : ∀ s ∈ a.states, s.IsUniform)
    (text : List Char) :
    (∀ goal, (a.visited text goal).Nodup ∧
        (a.visited text goal).length ≤ (text.length + 1) * a.size ∧
        ∀ v ∈ a.visited text goal, v.2 < a.size ∧ ∀ w, a.Joins text v w → w.2 < a.size) ∧
      (a.trace text).isSome = (a.run text).isSome ∧
      (a.captures text).isSome = (a.run text).isSome ∧
      ∀ path, a.trace text = some path →
        path.head? = some (0, a.start) ∧
        (∃ q, path.getLast? = some (text.length, q) ∧ a.accept q = a.run text) ∧
        path.IsChain (a.Joins text) ∧
        ∃ events,
          List.Forall₂ (fun v es => ∃ s, a.get? v.2 = some s ∧ es = s.events.map (v.1, ·))
            path events ∧
          a.captures text = some events.flatten := by
  have hsome : (a.trace text).isSome = (a.run text).isSome := by
    rw [Bool.eq_iff_iff, Option.isSome_iff_exists, Option.isSome_iff_exists]
    exact exists_trace_iff hlabels
  refine ⟨fun goal => ⟨nodup_visited goal, length_visited_le goal, fun v hv => ?_⟩, hsome, ?_,
    fun path h => ?_⟩
  · obtain ⟨_, _, hreach⟩ := Graph.reaches_of_mem_walk hv
    exact ⟨(isNode_moveGraph.mp hreach.isNode).2, fun w => wf.lt_size_of_joins⟩
  · rw [captures, Option.isSome_map, hsome]
  · obtain ⟨q, hq, hpath⟩ := isPath_of_trace h
    refine ⟨hpath.head?, ⟨q, hpath.getLast?, hq⟩, ?_, captures_of_trace h⟩
    exact hpath.isChain.imp fun _ _ hnext => mem_next_moveGraph.mp hnext

/-- An automaton with overlapping labels, and with line starts that lead around in a circle. -/
def circling : Automaton where
  states := #[
    ⟨[⟨⟨0x31, 0x33, by decide⟩, 1⟩, ⟨⟨0x32, 0x34, by decide⟩, 2⟩, ⟨.single lineStart, 3⟩], none, []⟩,
    ⟨[⟨.single textEnd, 2⟩], none, [⟨0, true, none⟩]⟩,
    ⟨[], some 1, [⟨0, false, none⟩]⟩,
    ⟨[⟨.single lineStart, 0⟩, ⟨.single 0x32, 1⟩], none, []⟩]
  start := 3

theorem trace_captures_agree_with_run_circling :
    circling.WellFormed ∧ (∀ s ∈ circling.states, s.IsUniform) ∧
      circling.trace ['2'] = some [(0, 3), (0, 0), (1, 1), (1, 2)] ∧
      ((∀ goal, (circling.visited ['2'] goal).Nodup ∧
          (circling.visited ['2'] goal).length ≤ 8 ∧
          ∀ v ∈ circling.visited ['2'] goal,
            v.2 < circling.size ∧ ∀ w, circling.Joins ['2'] v w → w.2 < circling.size) ∧
        (circling.trace ['2']).isSome = (circling.run ['2']).isSome ∧
        (circling.captures ['2']).isSome = (circling.run ['2']).isSome ∧
        ∀ path, circling.trace ['2'] = some path →
          path.head? = some (0, circling.start) ∧
          (∃ q, path.getLast? = some (1, q) ∧ circling.accept q = circling.run ['2']) ∧
          path.IsChain (circling.Joins ['2']) ∧
          ∃ events,
            List.Forall₂ (fun v es => ∃ s, circling.get? v.2 = some s ∧ es = s.events.map (v.1, ·))
              path events ∧
            circling.captures ['2'] = some events.flatten) := by
  have wf : circling.WellFormed := by decide
  have hlabels : ∀ s ∈ circling.states, s.IsUniform := by decide
  exact ⟨wf, hlabels, by cbv, trace_captures_agree_with_run wf hlabels ['2']⟩

end Automaton

end PositionAutomata
