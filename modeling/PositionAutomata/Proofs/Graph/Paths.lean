import Mathlib.Data.List.Chain
import Mathlib.Data.List.Perm.Subperm
import PositionAutomata.Proofs.Graph

/-
  Paths found by depth-first walks.

  A walk enters each node by a trail that goes back to the start
  (`isPath_of_mem_walk`), so what `Graph.findPath` answers is a path. It answers
  one whenever the start reaches a node that is looked for: a walk that has not
  found any is the walk that looks for nothing (`walk_eq_of_not_stopped`), and
  that one leaves no reachable node out, although it takes no node twice
  (`exists_findPath_iff`). The nodes bound the length of a walk
  (`length_walk_le`).
-/

namespace PositionAutomata.Graph

variable {α : Type}

/-- The nodes on a way from `start`, in the order of its steps. -/
inductive IsPath (g : Graph α) (start : α) : α → List α → Prop where
  | start : g.isNode start = true → IsPath g start start [start]
  | step {a b : α} {path : List α} : IsPath g start a path → b ∈ g.next a → g.isNode b = true →
      IsPath g start b (path ++ [b])

namespace IsPath

variable {g : Graph α} {start a : α} {path : List α}

theorem head? (h : g.IsPath start a path) : path.head? = some start := by
  induction h with
  | start _ => rfl
  | step _ _ _ ih => rw [List.head?_append, ih, Option.some_or]

theorem getLast? (h : g.IsPath start a path) : path.getLast? = some a := by
  cases h with
  | start _ => rfl
  | step _ _ _ => exact List.getLast?_concat

theorem isChain (h : g.IsPath start a path) : path.IsChain fun b c => c ∈ g.next b := by
  induction h with
  | start _ => exact List.isChain_singleton _
  | step hpath hnext _ ih =>
    refine List.isChain_append.mpr ⟨ih, List.isChain_singleton _, fun x hx y hy => ?_⟩
    rw [hpath.getLast?] at hx
    cases hx
    cases hy
    exact hnext

/-- Each node on a path is reached from its start. -/
theorem reaches_of_mem (h : g.IsPath start a path) : ∀ b ∈ path, g.Reaches start b := by
  induction h with
  | start hn =>
    intro b hb
    obtain rfl := List.mem_singleton.mp hb
    exact .refl hn
  | step hpath hnext hn ih =>
    intro b hb
    rcases List.mem_append.mp hb with hb | hb
    · exact ih b hb
    · obtain rfl := List.mem_singleton.mp hb
      exact (ih _ (List.mem_of_getLast? hpath.getLast?)).tail hnext hn

end IsPath

variable [Ord α] [Std.TransOrd α] [Std.LawfulEqOrd α] {g : Graph α}

/-! ## Trails -/

/-- If the trails on the stack of a walk are paths from some start, so are those of its visits. -/
theorem isPath_of_mem_walk {stop : α → Bool} {start : α} {stack : List (α × List α)}
    {seen : Std.TreeSet α}
    (hstack : ∀ v ∈ stack, g.isNode v.1 = true → g.IsPath start v.1 (v.1 :: v.2).reverse) :
    ∀ v ∈ g.walk stop stack seen, g.IsPath start v.1 (v.1 :: v.2).reverse := by
  induction stack, seen using walk_induction (g := g) with
  | nil seen => simp [walk_nil]
  | visit a trail stack seen hn hs ih =>
    obtain ⟨ha, hstack⟩ := List.forall_mem_cons.mp hstack
    rw [walk_visit stop trail stack hn hs]
    refine List.forall_mem_cons.mpr ⟨ha hn, ?_⟩
    split
    · exact fun _ h => absurd h List.not_mem_nil
    -- A successor is entered by the trail of the visited node and that node.
    apply ih
    intro v hv hnode
    rcases List.mem_append.mp hv with hv | hv
    · obtain ⟨b, hb, rfl⟩ := List.mem_map.mp hv
      rw [List.reverse_cons]
      exact (ha hn).step hb hnode
    · exact hstack v hv hnode
  | skip a trail stack seen h ih =>
    rw [walk_skip stop trail stack h]
    exact ih (List.forall_mem_cons.mp hstack).2

/-- Until a walk finds what it looks for, it goes as if it looked for nothing. -/
theorem walk_eq_of_not_stopped {stop : α → Bool} {stack : List (α × List α)}
    {seen : Std.TreeSet α} (h : ∀ v ∈ g.walk stop stack seen, stop v.1 = false) :
    g.walk stop stack seen = g.walk (fun _ => false) stack seen := by
  induction stack, seen using walk_induction (g := g) with
  | nil seen => rw [walk_nil, walk_nil]
  | visit a trail stack seen hn hs ih =>
    rw [walk_visit stop trail stack hn hs] at h ⊢
    obtain ⟨ha, h⟩ := List.forall_mem_cons.mp h
    have ha : ¬ stop a = true := by simp [ha]
    rw [if_neg ha] at h ⊢
    rw [walk_visit _ trail stack hn hs, if_neg Bool.false_ne_true, ih h]
  | skip a trail stack seen hskip ih =>
    rw [walk_skip stop trail stack hskip] at h ⊢
    rw [walk_skip _ trail stack hskip, ih h]

/-! ## Found paths -/

/-- What is found is a path to a node that was looked for. -/
theorem isPath_of_findPath {start : α} {goal : α → Bool} {path : List α}
    (h : g.findPath start goal = some path) :
    ∃ a, goal a = true ∧ g.IsPath start a path := by
  obtain ⟨⟨a, trail⟩, hv, rfl⟩ := Option.map_eq_some_iff.mp h
  have hgoal := List.find?_some hv
  refine ⟨a, hgoal, ?_⟩
  apply isPath_of_mem_walk (fun w hw hn => ?_) (a, trail) (List.mem_of_find?_eq_some hv)
  obtain rfl := List.mem_singleton.mp hw
  exact .start hn

/-- A path is found exactly if the start reaches a node that is looked for. -/
theorem exists_findPath_iff {start : α} {goal : α → Bool} :
    (∃ path, g.findPath start goal = some path) ↔ ∃ a, g.Reaches start a ∧ goal a = true := by
  constructor
  · intro h
    obtain ⟨path, hpath⟩ := h
    obtain ⟨a, ha, hp⟩ := isPath_of_findPath hpath
    exact ⟨a, hp.reaches_of_mem a (List.mem_of_getLast? hp.getLast?), ha⟩
  · intro h
    obtain ⟨a, hreach, ha⟩ := h
    rw [← Option.isSome_iff_exists]
    by_contra hnone
    rw [findPath, Option.isSome_map, Bool.not_eq_true, Option.isSome_eq_false_iff,
      Option.isNone_iff_eq_none, List.find?_eq_none] at hnone
    -- Nothing stopped the walk, so it has visited all that is reachable.
    have hwalk := walk_eq_of_not_stopped fun v hv => by simpa using hnone v hv
    have hvisited : a ∈ g.reachable [start] := mem_reachable.mpr ⟨start, by simp, hreach⟩
    obtain ⟨v, hv, rfl⟩ := List.mem_map.mp hvisited
    exact hnone v (hwalk ▸ hv) ha

/-- A walk makes at most one visit for each node. -/
theorem length_walk_le {nodes : List α} (hnodes : ∀ a, g.isNode a = true → a ∈ nodes)
    (stop : α → Bool) (stack : List (α × List α)) (seen : Std.TreeSet α) :
    (g.walk stop stack seen).length ≤ nodes.length := by
  have hsub : (g.walk stop stack seen).map Prod.fst ⊆ nodes := by
    intro a ha
    obtain ⟨_, _, hreach⟩ := reaches_of_mem_walk ha
    exact hnodes a hreach.isNode
  have hle := ((nodup_walk stop stack seen).1.subperm hsub).length_le
  rwa [List.length_map] at hle

end PositionAutomata.Graph
