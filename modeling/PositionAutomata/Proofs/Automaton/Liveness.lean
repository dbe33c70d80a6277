import PositionAutomata.Proofs.Automaton.Renumbering

/-
  Productive automata.

  An automaton is productive if each of its transitions leads to a state that
  reaches an accepting one (`Automaton.Productive`). A live state still reaches
  an accepting one when transitions are taken away from accepting states alone
  (`exists_reaches_accepting`): a path to acceptance can end at the first
  accepting state that it meets. So the live states, which are found backwards
  from the accepting ones, are those that reach one of them (`mem_live_iff`).
  Renumbering keeps automata productive.
-/

namespace PositionAutomata.Automaton

variable {a b : Automaton} {q r : StateId}

/-- From where a transition leads, an accepting state can be reached. -/
def Productive (a : Automaton) : Prop :=
  ∀ q, ∀ r ∈ a.successors q, ∃ f ∈ a.closure r, a.isAccepting f = true

/-- A live state reaches an accepting one if states that do not accept keep their live successors. -/
theorem exists_reaches_accepting (hsize : b.size = a.size)
    (hkeep : ∀ {q r}, a.isAccepting q = false → r ∈ a.successors q → r ∈ a.live →
      r ∈ b.successors q) (hq : q ∈ a.live) :
    ∃ f, b.graph.Reaches q f ∧ a.isAccepting f = true := by
  have hnode : ∀ {p}, p < a.size → b.graph.isNode p = true := fun h => by
    simpa [graph, hsize] using h
  obtain ⟨f, hf, hreach⟩ := Graph.mem_reachable.mp hq
  have hacc := (List.mem_filter.mp hf).2
  -- Backwards from an accepting state, until the path meets the state.
  induction hreach with
  | refl hn => exact ⟨f, .refl (hnode (by simpa [reverseGraph] using hn)), hacc⟩
  | @tail p q hp hstep hn ih =>
    have hlt : q < a.size := by simpa [reverseGraph] using hn
    have hlive : p ∈ a.live := Graph.mem_reachable.mpr ⟨f, hf, hp⟩
    cases hq : a.isAccepting q with
    | true => exact ⟨q, .refl (hnode hlt), hq⟩
    | false =>
      obtain ⟨g, hg, hgacc⟩ := ih hlive
      have hsucc := hkeep hq (mem_next_reverseGraph.mp hstep).2 hlive
      exact ⟨g, hg.head (hnode hlt) hsucc, hgacc⟩

theorem mem_live_of_reaches (h : a.graph.Reaches q r) (hr : r ∈ a.live) : q ∈ a.live := by
  induction h with
  | refl _ => exact hr
  | tail hreach hstep _ ih =>
    exact ih (mem_live_of_successor (by simpa [graph] using hreach.isNode) hr hstep)

/-- The states found backwards from the accepting ones are those that reach one of them. -/
theorem mem_live_iff : q ∈ a.live ↔ ∃ f ∈ a.closure q, a.isAccepting f = true := by
  constructor
  · intro h
    obtain ⟨f, hf, hacc⟩ := exists_reaches_accepting rfl (fun _ hr _ => hr) h
    exact ⟨f, mem_closure_iff.mpr hf, hacc⟩
  · intro h
    obtain ⟨f, hf, hacc⟩ := h
    have hreach := mem_closure_iff.mp hf
    have hlt : f < a.size := by simpa [graph] using hreach.isNode
    exact mem_live_of_reaches hreach (mem_live_of_accepting hlt hacc)

theorem mem_order_of_reaches (hq : q ∈ a.order) (h : a.graph.Reaches q r) : r ∈ a.order := by
  induction h with
  | refl _ => exact hq
  | tail _ hstep hn ih => exact mem_order_iff.mpr ((mem_order_iff.mp ih).tail hstep hn)

theorem Productive.retainReachable (wf : a.WellFormed) (h : a.Productive) :
    a.retainReachable.Productive := by
  intro i r' hr'
  obtain ⟨s, hs, t, ht, rfl⟩ := mem_successors.mp hr'
  obtain ⟨q, hq, rfl, u, hu, rfl⟩ := exists_of_get?_retainReachable hs
  obtain ⟨v, hv, rfl⟩ := List.mem_map.mp ht
  have hsucc : v.target ∈ a.successors q := mem_successors.mpr ⟨u, hu, v, hv, rfl⟩
  have htarget := successor_mem_order wf hq hsucc
  obtain ⟨f, hf, hacc⟩ := h q v.target hsucc
  refine ⟨a.newId f, ?_, ?_⟩
  · rw [closure_newId wf htarget]
    exact List.mem_map_of_mem hf
  · rw [isAccepting, accept_newId (mem_order_of_reaches htarget (mem_closure_iff.mp hf))]
    exact hacc

/-- Where no state has a transition, each reaches itself alone. -/
theorem eq_of_mem_closure (hnone : ∀ p, a.successors p = []) (h : r ∈ a.closure q) : r = q := by
  cases mem_closure_iff.mp h with
  | refl _ => rfl
  | @tail p _ _ hstep _ =>
    have hstep : r ∈ a.successors p := hstep
    rw [hnone p] at hstep
    exact absurd hstep List.not_mem_nil

/-- Where nothing accepts, a productive automaton whose first state reaches all others has only this
one, and no transition. -/
theorem Productive.of_no_accepting (h : a.Productive) (wf : a.WellFormed)
    (hclosure : a.closure 0 = List.range a.size) (hnone : ∀ q, a.isAccepting q = false) :
    a.size = 1 ∧ ∀ s ∈ a.states, s.transitions = [] := by
  have hsucc : ∀ q, a.successors q = [] := by
    intro q
    rw [List.eq_nil_iff_forall_not_mem]
    intro r hr
    obtain ⟨f, _, hf⟩ := h q r hr
    rw [hnone f] at hf
    exact absurd hf (by simp)
  constructor
  · have hpos : 0 < a.size := Nat.lt_of_le_of_lt (Nat.zero_le _) wf.1
    refine Nat.le_antisymm (Nat.not_lt.mp fun hlt => ?_) hpos
    -- A second state would be reached from the first one.
    have hsecond : 1 ∈ a.closure 0 := by
      rw [hclosure]
      exact List.mem_range.mpr hlt
    exact absurd (eq_of_mem_closure hsucc hsecond) Nat.one_ne_zero
  · intro s hs
    obtain ⟨q, hq⟩ := Array.mem_iff_getElem?.mp hs
    rw [List.eq_nil_iff_forall_not_mem]
    intro t ht
    have hmem : t.target ∈ a.successors q := mem_successors.mpr ⟨s, hq, t, ht, rfl⟩
    rw [hsucc q] at hmem
    exact absurd hmem List.not_mem_nil

end PositionAutomata.Automaton
