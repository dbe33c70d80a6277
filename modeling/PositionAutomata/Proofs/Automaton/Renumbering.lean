import PositionAutomata.Proofs.Automaton.Changes
import PositionAutomata.Proofs.Graph.Order
import PositionAutomata.Proofs.Index

/-
  Renumbered automata.

  The closure of the start lists each state that can be reached once. In the
  automaton that keeps only these, the state at rank `i` is the `i`-th of the
  closure with its targets renumbered (`get?_retainReachable`), a state is
  reached exactly if it is the rank of one that was reached before
  (`reached_retainReachable`), and so runs and longest matches stay what they
  were.
-/

namespace PositionAutomata.Automaton

variable {a : Automaton} {text : List Char}

/-- The states that the start reaches, in order. -/
def order (a : Automaton) : List StateId := a.closure a.start

/-- The number that a state has after renumbering. -/
def newId (a : Automaton) (q : StateId) : StateId := rank (.ofList a.order) q

theorem nodup_order (a : Automaton) : a.order.Nodup := Graph.nodup_reachable _ _

theorem mem_closure_iff {q r : StateId} : r ∈ a.closure q ↔ a.graph.Reaches q r := by
  rw [closure, Graph.mem_reachable]
  simp

theorem mem_order_iff {q : StateId} : q ∈ a.order ↔ a.graph.Reaches a.start q := mem_closure_iff

theorem lt_size_of_mem_order {q : StateId} (h : q ∈ a.order) : q < a.size := by
  simpa [graph] using (mem_order_iff.mp h).isNode

theorem start_mem_order (h : a.start < a.size) : a.start ∈ a.order :=
  mem_order_iff.mpr (.refl (by simpa [graph] using h))

theorem successor_mem_order (wf : a.WellFormed) {q r : StateId} (hq : q ∈ a.order)
    (hr : r ∈ a.successors q) : r ∈ a.order :=
  mem_order_iff.mpr ((mem_order_iff.mp hq).tail hr (by simpa [graph] using wf.2 q r hr))

theorem getElem?_newId {q : StateId} (h : q ∈ a.order) : a.order[a.newId q]? = some q := by
  obtain ⟨i, hi⟩ := Index.exists_get?_of_mem h
  rw [newId, rank, hi]
  exact Index.getElem?_of_get? hi

theorem newId_of_getElem? {q i : StateId} (h : a.order[i]? = some q) : a.newId q = i := by
  rw [newId, rank, Index.get?_of_getElem? a.nodup_order h]
  rfl

/-- A state that is kept is numbered by its place in the order. -/
theorem newId_eq_idxOf {q : StateId} (h : q ∈ a.order) : a.newId q = a.order.idxOf q :=
  newId_of_getElem? (List.getElem?_idxOf h)

theorem start_mem_head? (h : a.start < a.size) : a.order[0]? = some a.start := by
  rw [order, closure, Graph.reachable, List.map_cons, List.map_nil,
    Graph.walk_visit _ _ _ (by simpa [graph] using h) Std.TreeSet.not_mem_emptyc]
  rfl

/-! ## States -/

theorem getElem?_filterMap_of_isSome {α β : Type} {f : α → Option β} {xs : List α}
    (h : ∀ x ∈ xs, (f x).isSome = true) (i : Nat) : (xs.filterMap f)[i]? = xs[i]?.bind f := by
  induction xs generalizing i with
  | nil => rfl
  | cons x xs ih =>
    obtain ⟨y, hy⟩ := Option.isSome_iff_exists.mp (h x (by simp))
    rw [List.filterMap_cons_some hy]
    cases i with
    | zero => exact hy.symm
    | succ i => exact ih (fun z hz => h z (List.mem_cons_of_mem _ hz)) i

/-- The states that are kept are those of the closure, their targets renumbered. -/
theorem get?_retainReachable (i : StateId) :
    a.retainReachable.get? i =
      a.order[i]?.bind fun q => (a.get? q).map (renumberState a.newId) := by
  rw [retainReachable, get?]
  simp only [List.getElem?_toArray]
  refine getElem?_filterMap_of_isSome (fun q hq => ?_) i
  obtain ⟨s, hs⟩ := exists_get? (lt_size_of_mem_order hq)
  rw [hs]
  rfl

theorem get?_newId {q : StateId} (h : q ∈ a.order) :
    a.retainReachable.get? (a.newId q) = (a.get? q).map (renumberState a.newId) := by
  rw [get?_retainReachable, getElem?_newId h, Option.bind_some]

theorem accept_newId {q : StateId} (h : q ∈ a.order) :
    a.retainReachable.accept (a.newId q) = a.accept q := by
  rw [accept, accept, get?_newId h]
  cases a.get? q <;> rfl

theorem newId_lt_size {q : StateId} (h : q ∈ a.order) : a.newId q < a.retainReachable.size := by
  obtain ⟨s, hs⟩ := exists_get? (lt_size_of_mem_order h)
  exact lt_size_of_get? (s := renumberState a.newId s) (by rw [get?_newId h, hs]; rfl)

/-- A state that is kept is one of before with its targets renumbered. -/
theorem exists_of_get?_retainReachable {i : StateId} {s : State}
    (h : a.retainReachable.get? i = some s) :
    ∃ q ∈ a.order, a.newId q = i ∧ ∃ u, a.get? q = some u ∧ renumberState a.newId u = s := by
  rw [get?_retainReachable] at h
  obtain ⟨q, hq, hs⟩ := Option.bind_eq_some_iff.mp h
  obtain ⟨u, hu, rfl⟩ := Option.map_eq_some_iff.mp hs
  exact ⟨q, List.mem_of_getElem? hq, newId_of_getElem? hq, u, hu, rfl⟩

theorem exists_of_mem_retainReachable {s : State} (h : s ∈ a.retainReachable.states) :
    ∃ u ∈ a.states, renumberState a.newId u = s := by
  obtain ⟨i, hi⟩ := Array.mem_iff_getElem?.mp h
  obtain ⟨q, _, _, u, hu, rfl⟩ := exists_of_get?_retainReachable hi
  exact ⟨u, Array.mem_of_getElem? hu, rfl⟩

theorem size_retainReachable : a.retainReachable.size = a.order.length := by
  have hget : ∀ i, a.retainReachable.get? i = none ↔ a.order[i]? = none := by
    intro i
    rw [get?_retainReachable, Option.bind_eq_none_iff]
    constructor
    · intro h
      rw [Option.eq_none_iff_forall_ne_some]
      intro q hq
      obtain ⟨s, hs⟩ := exists_get? (lt_size_of_mem_order (List.mem_of_getElem? hq))
      have hnone := h q hq
      rw [hs] at hnone
      exact absurd hnone (by simp)
    · intro h q hq
      rw [h] at hq
      exact absurd hq (by simp)
  apply Nat.le_antisymm
  · exact Array.getElem?_eq_none_iff.mp ((hget _).mpr (List.getElem?_eq_none (Nat.le_refl _)))
  · exact List.getElem?_eq_none_iff.mp ((hget _).mp (Array.getElem?_eq_none (Nat.le_refl _)))

theorem WellFormed.retainReachable (wf : a.WellFormed) : a.retainReachable.WellFormed := by
  refine ⟨?_, fun i r hr => ?_⟩
  · show 0 < a.retainReachable.size
    rw [size_retainReachable]
    exact List.length_pos_of_mem (start_mem_order wf.1)
  · obtain ⟨s, hs, t, ht, rfl⟩ := mem_successors.mp hr
    obtain ⟨q, hq, rfl, u, hu, rfl⟩ := exists_of_get?_retainReachable hs
    obtain ⟨v, hv, rfl⟩ := List.mem_map.mp ht
    exact newId_lt_size (successor_mem_order wf hq (mem_successors.mpr ⟨u, hu, v, hv, rfl⟩))

theorem Consistent.retainReachable (hcon : a.Consistent) :
    a.retainReachable.Consistent := by
  intro i s hs t ht u hu hne
  obtain ⟨q, _, _, v, hv, rfl⟩ := exists_of_get?_retainReachable hs
  obtain ⟨t', ht', rfl⟩ := List.mem_map.mp ht
  obtain ⟨u', hu', rfl⟩ := List.mem_map.mp hu
  exact hcon q v hv t' ht' u' hu' fun h => hne (congrArg a.newId h)

theorem newId_injective {q r : StateId} (hq : q ∈ a.order) (hr : r ∈ a.order)
    (h : a.newId q = a.newId r) : q = r := by
  have hget := getElem?_newId hq
  rw [h, getElem?_newId hr] at hget
  exact (Option.some.inj hget).symm

theorem map_newId_order (a : Automaton) : a.order.map a.newId = List.range a.order.length := by
  apply List.ext_getElem?
  intro i
  rw [List.getElem?_map]
  rcases Nat.lt_or_ge i a.order.length with hi | hi
  · have hq := List.getElem?_eq_getElem hi
    rw [List.getElem?_range hi, hq, Option.map_some, newId_of_getElem? hq]
  · rw [List.getElem?_eq_none hi, List.getElem?_eq_none (by simpa using hi), Option.map_none]

theorem successors_newId {q : StateId} (h : q ∈ a.order) :
    a.retainReachable.successors (a.newId q) = (a.successors q).map a.newId := by
  rw [successors, successors, get?_newId h]
  cases a.get? q with
  | none => rfl
  | some s => simp [State.successors, renumberState]

theorem renames_retainReachable (wf : a.WellFormed) :
    Graph.Renames a.graph a.retainReachable.graph a.newId (· ∈ a.order) where
  isNode h := ⟨by simpa [graph] using lt_size_of_mem_order h,
    by simpa [graph] using newId_lt_size h⟩
  next := successors_newId
  closed := successor_mem_order wf
  injective := newId_injective

/-- What a state reaches after renumbering are the new numbers of what it reached, in order. -/
theorem closure_newId (wf : a.WellFormed) {q : StateId} (hq : q ∈ a.order) :
    a.retainReachable.closure (a.newId q) = (a.closure q).map a.newId := by
  have hpart : ∀ p ∈ [q], p ∈ a.order := fun p hp => by rwa [List.mem_singleton.mp hp]
  exact (renames_retainReachable wf).reachable hpart

/-- The states that are kept are numbered in the order of their closure. -/
theorem closure_retainReachable (wf : a.WellFormed) :
    a.retainReachable.closure 0 = List.range a.retainReachable.size := by
  calc a.retainReachable.closure 0
    _ = a.retainReachable.closure (a.newId a.start) := by
      rw [newId_of_getElem? (start_mem_head? wf.1)]
    _ = a.order.map a.newId := closure_newId wf (start_mem_order wf.1)
    _ = List.range a.retainReachable.size := by rw [map_newId_order, size_retainReachable]

theorem next?_renumberState (f : StateId → StateId) (s : State) (c : Nat) :
    (renumberState f s).next? c = (s.next? c).map f := by
  rw [State.next?, State.next?, renumberState, List.find?_map, Option.map_map, Option.map_map]
  rfl

/-! ## Runs -/

theorem Reached.mem_order (wf : a.WellFormed) {i : Nat} {q : StateId} (h : a.Reached text i q) :
    q ∈ a.order := by
  refine Reached.step_induction (motive := fun _ q => q ∈ a.order) start_mem_order
    (fun i j q s t _ ih hg ht _ _ => ?_) h
  exact successor_mem_order wf ih (mem_successors.mpr ⟨s, hg, t, ht, rfl⟩)

theorem Reached.newId (wf : a.WellFormed) {i : Nat} {q : StateId} (h : a.Reached text i q) :
    a.retainReachable.Reached text i (a.newId q) := by
  induction h with
  | start h =>
    rw [newId_of_getElem? (start_mem_head? h)]
    -- The start comes first in its own closure.
    refine .start (?_ : 0 < _)
    rw [← newId_of_getElem? (start_mem_head? h)]
    exact newId_lt_size (start_mem_order h)
  | @anchor i q s t hq hg ht hh hlt ih =>
    have hmem := (Reached.anchor hq hg ht hh hlt).mem_order wf
    exact .anchor ih (s := renumberState a.newId s) (t := { t with target := a.newId t.target })
      (by rw [get?_newId (hq.mem_order wf), hg]; rfl) (List.mem_map.mpr ⟨t, ht, rfl⟩) hh
      (newId_lt_size hmem)
  | @read i q r s c hq hg hc hn hlt ih =>
    have hmem := (Reached.read hq hg hc hn hlt).mem_order wf
    exact .read ih (s := renumberState a.newId s) (by rw [get?_newId (hq.mem_order wf), hg]; rfl) hc
      (by rw [next?_renumberState, hn]; rfl) (newId_lt_size hmem)

/-- What is reached after renumbering are the new numbers of what was reached. -/
theorem reached_retainReachable (wf : a.WellFormed) {i : Nat} {r : StateId} :
    a.retainReachable.Reached text i r ↔ ∃ q, a.Reached text i q ∧ a.newId q = r := by
  constructor
  · intro h
    induction h with
    | start _ => exact ⟨a.start, .start wf.1, newId_of_getElem? (start_mem_head? wf.1)⟩
    | anchor _ hg ht hh _ ih =>
      obtain ⟨q, hq, rfl⟩ := ih
      rw [get?_newId (hq.mem_order wf)] at hg
      obtain ⟨s, hs, rfl⟩ := Option.map_eq_some_iff.mp hg
      obtain ⟨u, hu, rfl⟩ := List.mem_map.mp ht
      have hlt : u.target < a.size := wf.2 q _ (mem_successors.mpr ⟨s, hs, u, hu, rfl⟩)
      exact ⟨u.target, .anchor hq hs hu hh hlt, rfl⟩
    | read _ hg hc hn _ ih =>
      obtain ⟨q, hq, rfl⟩ := ih
      rw [get?_newId (hq.mem_order wf)] at hg
      obtain ⟨s, hs, rfl⟩ := Option.map_eq_some_iff.mp hg
      rw [next?_renumberState] at hn
      obtain ⟨r, hr, rfl⟩ := Option.map_eq_some_iff.mp hn
      obtain ⟨t, ht, _, _, rfl⟩ := State.exists_of_next? hr
      have hlt : t.target < a.size := wf.2 q _ (mem_successors.mpr ⟨s, hs, t, ht, rfl⟩)
      exact ⟨t.target, .read hq hs hc hr hlt, rfl⟩
  · intro h
    obtain ⟨q, hq, rfl⟩ := h
    exact hq.newId wf

theorem reports_retainReachable (wf : a.WellFormed) {i k : Nat} :
    a.retainReachable.Reports text i k ↔ a.Reports text i k := by
  constructor
  · intro h
    obtain ⟨r, hr, hk⟩ := h
    obtain ⟨q, hq, rfl⟩ := (reached_retainReachable wf).mp hr
    rw [accept_newId (hq.mem_order wf)] at hk
    exact ⟨q, hq, hk⟩
  · intro h
    obtain ⟨q, hq, hk⟩ := h
    exact ⟨a.newId q, hq.newId wf, by rwa [accept_newId (hq.mem_order wf)]⟩

/-- Dropping unreachable states and renumbering the others changes no run. -/
theorem run_retainReachable (wf : a.WellFormed) (text : List Char) :
    a.retainReachable.run text = a.run text :=
  run_congr fun _ => reports_retainReachable wf

theorem longestMatch_retainReachable (wf : a.WellFormed) (text : List Char) :
    a.retainReachable.longestMatch text = a.longestMatch text :=
  longestMatch_congr fun _ _ => reports_retainReachable wf

end PositionAutomata.Automaton
