import Std.Data.TreeSet.Lemmas

/-
  Depth-first walks through finite graphs.

  A graph is given by its successor lists and a test for its nodes, of which
  there are finitely many. `Graph.walk` visits the nodes that are reachable
  from a stack of starting points, parents first and successors in their order,
  each node once; the nodes that it has seen are kept in an ordered set. With
  each node it lists the trail by which it was entered, so that the walk also
  finds paths; looking for a path, it ends where the path does. A node that
  waits on the stack several times counts when it is taken from the stack, not
  when it is put there.
-/

namespace PositionAutomata

/-- A graph with finitely many nodes. -/
structure Graph (α : Type) where
  isNode : α → Bool
  next : α → List α
  finite : ∃ nodes : List α, ∀ a, isNode a = true → a ∈ nodes

namespace Graph

variable {α : Type} [Ord α]

/-- Number of nodes that have not been seen. -/
def unseen (nodes : List α) (seen : Std.TreeSet α) : Nat := nodes.countP fun a => ¬ a ∈ seen

theorem unseen_insert_le [Std.TransOrd α] (nodes : List α) (seen : Std.TreeSet α) (a : α) :
    unseen nodes (seen.insert a) ≤ unseen nodes seen :=
  List.countP_mono_left fun x _ h => by simp_all [Std.TreeSet.mem_insert]

theorem unseen_insert_lt [Std.TransOrd α] [Std.LawfulEqOrd α] {nodes : List α}
    {seen : Std.TreeSet α} {a : α} (hn : a ∈ nodes) (hs : ¬ a ∈ seen) :
    unseen nodes (seen.insert a) < unseen nodes seen := by
  induction nodes with
  | nil => exact absurd hn List.not_mem_nil
  | cons x xs ih =>
    have hle := unseen_insert_le xs seen a
    simp only [unseen, List.countP_cons, decide_eq_true_eq] at ih hle ⊢
    by_cases hx : x = a
    · subst hx
      rw [if_pos hs, if_neg fun h => h Std.TreeSet.mem_insert_self]
      omega
    · have hlt := ih ((List.mem_cons.mp hn).resolve_left fun h => hx h.symm)
      have hiff : (¬ x ∈ seen.insert a) ↔ ¬ x ∈ seen := by
        simp [Std.TreeSet.mem_insert, Ne.symm hx]
      simp only [hiff]
      omega

/-- The visits of a walk that has the given stack before it and has seen some
nodes. A visit is a node and the nodes entered on the way to it, the last one
first. The walk ends with the first node that `stop` selects. -/
def walk [Std.TransOrd α] [Std.LawfulEqOrd α] (g : Graph α) (stop : α → Bool)
    (stack : List (α × List α)) (seen : Std.TreeSet α) : List (α × List α) :=
  match stack with
  | [] => []
  | (a, trail) :: stack =>
    if _ : g.isNode a = true ∧ ¬ a ∈ seen then
      (a, trail) ::
        if stop a then []
        else g.walk stop ((g.next a).map (·, a :: trail) ++ stack) (seen.insert a)
    else g.walk stop stack seen
  termination_by (unseen g.finite.choose seen, stack.length)
  decreasing_by
    · exact .left _ _ (unseen_insert_lt (g.finite.choose_spec a ‹_ ∧ _›.1) ‹_ ∧ _›.2)
    · exact .right _ (Nat.lt_succ_self _)

variable [Std.TransOrd α] [Std.LawfulEqOrd α]

/-- The nodes that are reachable from some starting points, in the order of the
walk. -/
def reachable (g : Graph α) (starts : List α) : List α :=
  (g.walk (fun _ => false) (starts.map (·, [])) ∅).map Prod.fst

/-- The path to the first visited node that satisfies a test. -/
def findPath (g : Graph α) (start : α) (goal : α → Bool) : Option (List α) :=
  ((g.walk goal [(start, [])] ∅).find? fun visit => goal visit.1).map fun (a, trail) =>
    (a :: trail).reverse

end Graph

end PositionAutomata
