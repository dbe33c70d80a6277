import PositionAutomata.Proofs.Graph.Order

/-
  The recursive depth-first order.

  `Graph.preorder` visits a node, then what is below it by recursion, and then the
  nodes that come after it, each only if it was not visited before; it keeps no
  stack. What it visits depends on which nodes were visited before, not on how
  these are listed (`preorder_congr`), so it goes through one list after another
  (`preorder_append`). A walk puts the successors of a node in front of what waits on
  its stack and takes a node that waits there again for visited or not when it
  comes to it, and that is the same order (`map_fst_walk`).
-/

namespace PositionAutomata.Graph

variable {α : Type} [DecidableEq α]

theorem countP_not_mem_append_le (nodes xs ys : List α) :
    (nodes.countP fun a => a ∉ xs ++ ys) ≤ nodes.countP fun a => a ∉ ys :=
  List.countP_mono_left fun a _ h => by simp_all

theorem countP_not_mem_lt {nodes before : List α} {a : α} (hn : a ∈ nodes) (ha : a ∉ before) :
    (nodes.countP fun b => b ∉ a :: before) < nodes.countP fun b => b ∉ before := by
  induction nodes with
  | nil => exact absurd hn List.not_mem_nil
  | cons x xs ih =>
    have hle := countP_not_mem_append_le xs [a] before
    simp only [List.singleton_append, List.countP_cons, decide_eq_true_eq] at ih hle ⊢
    by_cases hx : x = a
    · subst hx
      rw [if_pos ha, if_neg fun h => h List.mem_cons_self]
      omega
    · have hlt := ih ((List.mem_cons.mp hn).resolve_left fun h => hx h.symm)
      have hiff : x ∉ a :: before ↔ x ∉ before := by simp [hx]
      simp only [hiff]
      omega

/-- The nodes that a recursive search visits from some nodes on, if it has visited others before:
each node that is new, what is new below it, and then the others. -/
def preorder (g : Graph α) (before : List α) : List α → List α
  | [] => []
  | a :: rest =>
    if _ : g.isNode a = true ∧ a ∉ before then
      let below := g.preorder (a :: before) (g.next a)
      a :: below ++ g.preorder (below ++ a :: before) rest
    else g.preorder before rest
  termination_by xs => (g.finite.choose.countP fun a => a ∉ before, xs.length)
  decreasing_by
    · exact .left _ _ (countP_not_mem_lt (g.finite.choose_spec a ‹_ ∧ _›.1) ‹_ ∧ _›.2)
    · exact .left _ _ (Nat.lt_of_le_of_lt (countP_not_mem_append_le _ _ _)
        (countP_not_mem_lt (g.finite.choose_spec a ‹_ ∧ _›.1) ‹_ ∧ _›.2))
    · exact .right _ (Nat.lt_succ_self _)

variable {g : Graph α} {before before' : List α} {a : α}

theorem preorder_nil (before : List α) : g.preorder before [] = [] := by
  rw [preorder]

theorem preorder_visit (hn : g.isNode a = true) (ha : a ∉ before) (rest : List α) :
    g.preorder before (a :: rest) =
      a :: g.preorder (a :: before) (g.next a) ++
        g.preorder (g.preorder (a :: before) (g.next a) ++ a :: before) rest := by
  rw [preorder, dif_pos ⟨hn, ha⟩]

theorem preorder_skip (h : ¬ (g.isNode a = true ∧ a ∉ before)) (rest : List α) :
    g.preorder before (a :: rest) = g.preorder before rest := by
  rw [preorder, dif_neg h]

/-- The nodes before and after one step of the recursion. -/
theorem preorder_induction {motive : List α → List α → Prop}
    (nil : ∀ before, motive before [])
    (visit : ∀ before a rest, g.isNode a = true → a ∉ before →
      motive (a :: before) (g.next a) →
      motive (g.preorder (a :: before) (g.next a) ++ a :: before) rest →
      motive before (a :: rest))
    (skip : ∀ before a rest, ¬ (g.isNode a = true ∧ a ∉ before) → motive before rest →
      motive before (a :: rest))
    (before xs : List α) : motive before xs := by
  refine preorder.induct g motive nil (fun before a rest h ihbelow ihrest => ?_)
    (fun before a rest h ih => ?_) before xs
  · exact visit before a rest h.1 h.2 ihbelow ihrest
  · exact skip before a rest h ih

/-- What is visited depends on which nodes were visited before, not on their order. -/
theorem preorder_congr (h : ∀ a, a ∈ before ↔ a ∈ before') (xs : List α) :
    g.preorder before xs = g.preorder before' xs := by
  induction before, xs using preorder_induction (g := g) generalizing before' with
  | nil before => rw [preorder_nil, preorder_nil]
  | visit before a rest hn ha ihbelow ihrest =>
    have ha' : a ∉ before' := fun hm => ha ((h a).mpr hm)
    have hbelow : g.preorder (a :: before) (g.next a) = g.preorder (a :: before') (g.next a) :=
      ihbelow fun b => by rw [List.mem_cons, List.mem_cons, h b]
    rw [preorder_visit hn ha, preorder_visit hn ha', ← hbelow]
    congr 1
    exact ihrest fun b => by
      rw [List.mem_append, List.mem_append, List.mem_cons, List.mem_cons, h b]
  | skip before a rest hskip ih =>
    rw [preorder_skip hskip, preorder_skip fun h' => hskip ⟨h'.1, fun hm => h'.2 ((h a).mp hm)⟩]
    exact ih h

/-- After some nodes the search goes on with what it has not visited from these. -/
theorem preorder_append (before xs ys : List α) :
    g.preorder before (xs ++ ys) =
      g.preorder before xs ++ g.preorder (g.preorder before xs ++ before) ys := by
  induction before, xs using preorder_induction (g := g) with
  | nil before => rw [preorder_nil, List.nil_append, List.nil_append, List.nil_append]
  | visit before a rest hn ha _ ihrest =>
    rw [List.cons_append, preorder_visit hn ha, preorder_visit hn ha, ihrest, List.append_assoc]
    congr 2
    refine preorder_congr (fun b => ?_) ys
    simp only [List.mem_append, List.mem_cons, or_assoc, or_left_comm]
  | skip before a rest hskip ih =>
    rw [List.cons_append, preorder_skip hskip, preorder_skip hskip, ih]

variable [Ord α] [Std.TransOrd α] [Std.LawfulEqOrd α]

/-- A walk visits what the recursive search visits from the nodes on its stack. -/
theorem map_fst_walk {stack : List (α × List α)} {seen : Std.TreeSet α}
    (h : ∀ a, a ∈ before ↔ a ∈ seen) :
    (g.walk (fun _ => false) stack seen).map Prod.fst =
      g.preorder before (stack.map Prod.fst) := by
  induction stack, seen using walk_induction (g := g) generalizing before with
  | nil seen => rw [walk_nil, List.map_nil, preorder_nil]
  | visit a trail stack seen hn hs ih =>
    have ha : a ∉ before := fun hm => hs ((h a).mp hm)
    have hinsert : ∀ b, b ∈ a :: before ↔ b ∈ seen.insert a := by
      intro b
      rw [List.mem_cons, Std.TreeSet.mem_insert, Std.LawfulEqOrd.compare_eq_iff_eq, h b]
      exact or_congr_left eq_comm
    rw [walk_visit _ trail stack hn hs, if_neg Bool.false_ne_true, List.map_cons, ih hinsert,
      map_fst_push, preorder_append, List.map_cons, preorder_visit hn ha, List.cons_append]
  | skip a trail stack seen hskip ih =>
    rw [walk_skip _ trail stack hskip, List.map_cons,
      preorder_skip fun h' => hskip ⟨h'.1, fun hm => h'.2 ((h a).mpr hm)⟩]
    exact ih h

/-- What is listed as reachable stands in the order of the recursive search. -/
theorem reachable_eq_preorder (g : Graph α) (starts : List α) :
    g.reachable starts = g.preorder [] starts := by
  have hfst : (starts.map (·, ([] : List α))).map Prod.fst = starts := by
    simp [Function.comp_def]
  have hwalk : g.reachable starts = g.preorder [] ((starts.map (·, [])).map Prod.fst) :=
    map_fst_walk fun a => by simp
  rw [hwalk, hfst]

end PositionAutomata.Graph
