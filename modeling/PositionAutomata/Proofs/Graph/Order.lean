import Mathlib.Data.List.Find
import PositionAutomata.Proofs.Graph

/-
  The order of depth-first walks.

  Which nodes a walk visits, and in which order, only depends on where each
  successor of a node first appears among them: a node that comes back later
  waits on the stack for nothing (`reachable_congr`). And a walk commutes with a
  renaming of the nodes that it can meet (`Renames.walk`), so what is reachable
  and the path that is found are renamed with them.
-/

namespace PositionAutomata

/-! ## First appearances -/

section Appearances

variable {α : Type} [BEq α] [LawfulBEq α]

theorem eraseDups_filter (p : α → Bool) (xs : List α) :
    (xs.filter p).eraseDups = xs.eraseDups.filter p := by
  match xs with
  | [] => rfl
  | x :: xs =>
    have hcomm : ((xs.filter fun b => !b == x).filter p) = (xs.filter p).filter fun b => !b == x := by
      simp only [List.filter_filter, Bool.and_comm]
    rw [List.eraseDups_cons, List.filter_cons, List.filter_cons, ← eraseDups_filter p, hcomm]
    split
    next => rw [List.eraseDups_cons]
    next hx =>
      -- Where the test fails at `x`, what passes it is not `x` anyway.
      congr 1
      refine (List.filter_eq_self.mpr fun b hb => ?_).symm
      rw [Bool.not_eq_true', beq_eq_false_iff_ne]
      rintro rfl
      exact hx (List.mem_filter.mp hb).2
  termination_by xs.length
  decreasing_by exact Nat.lt_succ_of_le (List.length_filter_le _ _)

theorem nodup_eraseDups (xs : List α) : xs.eraseDups.Nodup := by
  match xs with
  | [] => exact List.nodup_nil
  | x :: xs =>
    rw [List.eraseDups_cons, List.nodup_cons]
    exact ⟨by simp, nodup_eraseDups _⟩
  termination_by xs.length
  decreasing_by exact Nat.lt_succ_of_le (List.length_filter_le _ _)

theorem eraseDups_map {β : Type} [BEq β] [LawfulBEq β] {f : α → β} {xs : List α}
    (hf : ∀ a ∈ xs, ∀ b ∈ xs, f a = f b → a = b) :
    (xs.map f).eraseDups = xs.eraseDups.map f := by
  match xs with
  | [] => rfl
  | x :: xs =>
    have hfilter : (xs.map f).filter (fun b => !b == f x) =
        (xs.filter fun b => !b == x).map f := by
      rw [List.filter_map]
      congr 1
      refine List.filter_congr fun b hb => ?_
      rw [Bool.eq_iff_iff, Function.comp_apply, Bool.not_eq_true', Bool.not_eq_true',
        beq_eq_false_iff_ne, beq_eq_false_iff_ne]
      have hinj := hf b (List.mem_cons_of_mem _ hb) x (by simp)
      exact ⟨fun h hbx => h (congrArg f hbx), fun h hbx => h (hinj hbx)⟩
    have hrest : ∀ a ∈ xs.filter fun b => !b == x, ∀ b ∈ xs.filter fun b => !b == x,
        f a = f b → a = b := fun a ha b hb =>
      hf a (List.mem_cons_of_mem _ (List.mem_filter.mp ha).1) b
        (List.mem_cons_of_mem _ (List.mem_filter.mp hb).1)
    rw [List.map_cons, List.eraseDups_cons, List.eraseDups_cons, hfilter, eraseDups_map hrest,
      List.map_cons]
  termination_by xs.length
  decreasing_by exact Nat.lt_succ_of_le (List.length_filter_le _ _)

end Appearances

namespace Graph

variable {α : Type}

theorem map_fst_push (xs : List α) (trail : List α) (stack : List (α × List α)) :
    (xs.map (·, trail) ++ stack).map Prod.fst = xs ++ stack.map Prod.fst := by
  simp [Function.comp_def]

variable [Ord α]

section Fresh

variable [BEq α] {g h : Graph α}

/-- The nodes among some values that have not been seen, each where it first appears. -/
def fresh (g : Graph α) (seen : Std.TreeSet α) (xs : List α) : List α :=
  (xs.filter fun a => g.isNode a = true ∧ ¬ a ∈ seen).eraseDups

theorem fresh_skip {seen : Std.TreeSet α} {a : α} (ha : ¬ (g.isNode a = true ∧ ¬ a ∈ seen))
    (xs : List α) : g.fresh seen (a :: xs) = g.fresh seen xs := by
  rw [fresh, List.filter_cons_of_neg (by simpa using ha), fresh]

variable [LawfulBEq α]

theorem fresh_congr (hnode : ∀ a, g.isNode a = h.isNode a) {xs ys : List α}
    (hxs : xs.eraseDups = ys.eraseDups) (seen : Std.TreeSet α) :
    g.fresh seen xs = h.fresh seen ys := by
  simp only [fresh, eraseDups_filter, hxs, hnode]

theorem fresh_append (seen : Std.TreeSet α) (xs ys : List α) :
    g.fresh seen (xs ++ ys) =
      g.fresh seen xs ++ (g.fresh seen ys).removeAll (g.fresh seen xs) := by
  simp only [fresh, List.filter_append, List.eraseDups_append, List.removeAll, List.elem_eq_mem,
    List.mem_eraseDups]
  rw [← eraseDups_filter]

variable [Std.TransOrd α] [Std.LawfulEqOrd α]

theorem fresh_visit {seen : Std.TreeSet α} {a : α} (hn : g.isNode a = true) (hs : ¬ a ∈ seen)
    (xs : List α) : g.fresh seen (a :: xs) = a :: g.fresh (seen.insert a) xs := by
  rw [fresh, List.filter_cons_of_pos (by simpa using ⟨hn, hs⟩), List.eraseDups_cons, fresh,
    List.filter_filter]
  congr 3
  funext b
  rw [Bool.eq_iff_iff, Bool.and_eq_true, decide_eq_true_eq, decide_eq_true_eq,
    Std.TreeSet.mem_insert, Std.LawfulEqOrd.compare_eq_iff_eq, Bool.not_eq_true',
    beq_eq_false_iff_ne]
  grind

/-- A walk with nothing fresh on its stack is over. -/
theorem walk_of_fresh_eq_nil {stop : α → Bool} {stack : List (α × List α)}
    {seen : Std.TreeSet α} (hf : g.fresh seen (stack.map Prod.fst) = []) :
    g.walk stop stack seen = [] := by
  induction stack with
  | nil => exact walk_nil stop seen
  | cons x stack ih =>
    obtain ⟨a, trail⟩ := x
    rw [List.map_cons] at hf
    by_cases ha : g.isNode a = true ∧ ¬ a ∈ seen
    · rw [fresh_visit ha.1 ha.2] at hf
      exact absurd hf (by simp)
    · rw [fresh_skip ha] at hf
      rw [walk_skip stop trail stack ha]
      exact ih hf

/-- A walk visits next what is fresh first. -/
theorem walk_of_fresh_eq_cons {stop : α → Bool} {stack : List (α × List α)}
    {seen : Std.TreeSet α} {a : α} {rest : List α}
    (hf : g.fresh seen (stack.map Prod.fst) = a :: rest) :
    ∃ trail stack', g.fresh (seen.insert a) (stack'.map Prod.fst) = rest ∧
      g.walk stop stack seen = (a, trail) ::
        if stop a then []
        else g.walk stop ((g.next a).map (·, a :: trail) ++ stack') (seen.insert a) := by
  induction stack with
  | nil => exact absurd hf (by simp [fresh])
  | cons x stack ih =>
    obtain ⟨b, trail⟩ := x
    rw [List.map_cons] at hf
    by_cases hb : g.isNode b = true ∧ ¬ b ∈ seen
    · rw [fresh_visit hb.1 hb.2] at hf
      obtain ⟨rfl, hrest⟩ := List.cons.inj hf
      exact ⟨trail, stack, hrest, walk_visit stop trail stack hb.1 hb.2⟩
    · rw [fresh_skip hb] at hf
      rw [walk_skip stop trail stack hb]
      exact ih hf

/-- Walks visit the same nodes if the same is fresh on their stacks and successors first appear in
the same order. -/
theorem walk_congr (hnode : ∀ a, g.isNode a = h.isNode a)
    (hnext : ∀ a, (g.next a).eraseDups = (h.next a).eraseDups)
    {stack stack' : List (α × List α)} {seen : Std.TreeSet α}
    (hf : g.fresh seen (stack.map Prod.fst) = h.fresh seen (stack'.map Prod.fst)) :
    (g.walk (fun _ => false) stack seen).map Prod.fst =
      (h.walk (fun _ => false) stack' seen).map Prod.fst := by
  induction stack, seen using walk_induction (g := g) generalizing stack' with
  | nil seen => rw [walk_nil, walk_of_fresh_eq_nil hf.symm]
  | visit a trail stack seen hn hs ih =>
    rw [List.map_cons, fresh_visit hn hs] at hf
    obtain ⟨trail', rest, hrest, hwalk⟩ := walk_of_fresh_eq_cons hf.symm
    have hpush : g.fresh (seen.insert a)
          (((g.next a).map (·, a :: trail) ++ stack).map Prod.fst) =
        h.fresh (seen.insert a) (((h.next a).map (·, a :: trail') ++ rest).map Prod.fst) := by
      rw [map_fst_push, map_fst_push, fresh_append, fresh_append, hrest,
        fresh_congr hnode (hnext a)]
    rw [walk_visit _ trail stack hn hs, hwalk, List.map_cons, List.map_cons, if_neg (by simp),
      if_neg (by simp), ih hpush]
  | skip a trail stack seen ha ih =>
    rw [List.map_cons, fresh_skip ha] at hf
    rw [walk_skip _ trail stack ha, ih hf]

/-- What is reachable, and in which order, depends on the first appearances of successors only. -/
theorem reachable_congr (hnode : ∀ a, g.isNode a = h.isNode a)
    (hnext : ∀ a, (g.next a).eraseDups = (h.next a).eraseDups) (starts : List α) :
    g.reachable starts = h.reachable starts :=
  walk_congr hnode hnext (fresh_congr hnode rfl ∅)

end Fresh

/-! ## Renaming -/

variable [Std.TransOrd α] [Std.LawfulEqOrd α]
variable {β : Type} {g : Graph α} {h : Graph β} {f : α → β} {part : α → Prop}

/-- On a part of a graph that no step leaves, a map to the nodes of another graph renames: it keeps
nodes apart and successors in their order. -/
structure Renames (g : Graph α) (h : Graph β) (f : α → β) (part : α → Prop) : Prop where
  isNode {a : α} : part a → g.isNode a = true ∧ h.isNode (f a) = true
  next {a : α} : part a → h.next (f a) = (g.next a).map f
  closed {a b : α} : part a → b ∈ g.next a → part b
  injective {a b : α} : part a → part b → f a = f b → a = b

/-- A walk does not leave a part of the graph that no step leaves. -/
theorem Renames.part_of_mem_walk (hr : Renames g h f part) {stop : α → Bool} {start : α}
    (hs : part start) {a : α} (ha : a ∈ (g.walk stop [(start, [])] ∅).map Prod.fst) : part a := by
  obtain ⟨s, hmem, hreach⟩ := reaches_of_mem_walk ha
  obtain rfl : s = start := by simpa using hmem
  clear ha
  induction hreach with
  | refl _ => exact hs
  | tail _ hnext _ ih => exact hr.closed ih hnext

variable [Ord β] [Std.TransOrd β] [Std.LawfulEqOrd β]

/-- A walk through renamed nodes makes the renamed visits, if it looks for the renamed nodes. -/
theorem Renames.walk (hr : Renames g h f part) {stop : α → Bool} {stop' : β → Bool}
    (hstop : ∀ a, part a → stop' (f a) = stop a) {stack : List (α × List α)}
    {seen : Std.TreeSet α} {seen' : Std.TreeSet β} (hpart : ∀ v ∈ stack, part v.1)
    (hseen : ∀ a, part a → (f a ∈ seen' ↔ a ∈ seen)) :
    h.walk stop' (stack.map (Prod.map f (List.map f))) seen' =
      (g.walk stop stack seen).map (Prod.map f (List.map f)) := by
  induction stack, seen using walk_induction (g := g) generalizing seen' with
  | nil seen => rw [List.map_nil, walk_nil, walk_nil, List.map_nil]
  | visit a trail stack seen hn hs ih =>
    obtain ⟨ha, hpart⟩ := List.forall_mem_cons.mp hpart
    have hs' : ¬ f a ∈ seen' := fun h => hs ((hseen a ha).mp h)
    rw [List.map_cons, Prod.map_apply, walk_visit stop trail stack hn hs,
      walk_visit stop' _ _ (hr.isNode ha).2 hs', List.map_cons, Prod.map_apply, hstop a ha]
    congr 1
    split
    next => rfl
    next =>
      have hpush : (h.next (f a)).map (·, f a :: trail.map f) ++
            stack.map (Prod.map f (List.map f)) =
          ((g.next a).map (·, a :: trail) ++ stack).map (Prod.map f (List.map f)) := by
        simp [hr.next ha]
      rw [hpush]
      apply ih
      · intro v hv
        rcases List.mem_append.mp hv with hv | hv
        · obtain ⟨b, hb, rfl⟩ := List.mem_map.mp hv
          exact hr.closed ha hb
        · exact hpart v hv
      · intro b hb
        rw [Std.TreeSet.mem_insert, Std.TreeSet.mem_insert, hseen b hb,
          Std.LawfulEqOrd.compare_eq_iff_eq, Std.LawfulEqOrd.compare_eq_iff_eq]
        exact or_congr_left ⟨hr.injective ha hb, congrArg f⟩
  | skip a trail stack seen hskip ih =>
    obtain ⟨ha, hpart⟩ := List.forall_mem_cons.mp hpart
    have hskip' : ¬ (h.isNode (f a) = true ∧ ¬ f a ∈ seen') := fun h =>
      hskip ⟨(hr.isNode ha).1, fun hs => h.2 ((hseen a ha).mpr hs)⟩
    rw [List.map_cons, Prod.map_apply, walk_skip stop trail stack hskip,
      walk_skip stop' _ _ hskip']
    exact ih hpart hseen

/-- The walk through renamed nodes visits the renamed nodes of the walk, in the same order. -/
theorem Renames.reachable (hr : Renames g h f part) {starts : List α}
    (hpart : ∀ a ∈ starts, part a) :
    h.reachable (starts.map f) = (g.reachable starts).map f := by
  have hstack : (starts.map f).map (·, ([] : List β)) =
      (starts.map (·, ([] : List α))).map (Prod.map f (List.map f)) := by
    simp
  have hwalk : h.walk (fun _ => false)
        ((starts.map (·, ([] : List α))).map (Prod.map f (List.map f))) ∅ =
      (g.walk (fun _ => false) (starts.map (·, [])) ∅).map (Prod.map f (List.map f)) :=
    hr.walk (fun _ _ => rfl) (by simpa using hpart) (by simp)
  rw [Graph.reachable, hstack, hwalk, Graph.reachable, List.map_map, List.map_map]
  rfl

/-- The path found among renamed nodes is the renamed path. -/
theorem Renames.findPath (hr : Renames g h f part) {goal : α → Bool} {goal' : β → Bool}
    (hgoal : ∀ a, part a → goal' (f a) = goal a) {start : α} (hs : part start) :
    h.findPath (f start) goal' = (g.findPath start goal).map (List.map f) := by
  have hwalk : h.walk goal' ([(start, [])].map (Prod.map f (List.map f))) ∅ =
      (g.walk goal [(start, [])] ∅).map (Prod.map f (List.map f)) :=
    hr.walk hgoal (by simpa using hs) (by simp)
  have hfind : (g.walk goal [(start, [])] ∅).find? (fun v => goal' (f v.1)) =
      (g.walk goal [(start, [])] ∅).find? fun v => goal v.1 :=
    List.find?_congr fun _ hv => hgoal _ (hr.part_of_mem_walk hs (List.mem_map_of_mem hv))
  rw [List.map_singleton, Prod.map_apply, List.map_nil] at hwalk
  rw [Graph.findPath, hwalk, List.find?_map, Graph.findPath, Option.map_map, Option.map_map,
    ← hfind]
  congr 1
  funext v
  simp

end Graph

end PositionAutomata
