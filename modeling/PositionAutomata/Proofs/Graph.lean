import PositionAutomata.Graph

/-
  What depth-first walks visit.

  `Graph.Reaches` is reachability through nodes. A walk that looks for nothing
  visits exactly the nodes that the stack reaches, each once: what it visits is
  reached (`reaches_of_mem_walk`), the stack is visited or was seen before
  (`stack_visited`), and from a visited node no step leads out of what was
  visited or seen (`visited_closed`). `mem_reachable` puts them together.
-/

namespace PositionAutomata.Graph

variable {α : Type}

/-- A node reaches another by steps that only meet nodes. -/
inductive Reaches (g : Graph α) : α → α → Prop where
  | refl {a : α} : g.isNode a = true → Reaches g a a
  | tail {a b c : α} : Reaches g a b → c ∈ g.next b → g.isNode c = true → Reaches g a c

theorem Reaches.isNode {g : Graph α} {a b : α} (h : g.Reaches a b) : g.isNode b = true := by
  cases h with
  | refl h => exact h
  | tail _ _ h => exact h

theorem Reaches.head {g : Graph α} {a b c : α} (ha : g.isNode a = true) (hab : b ∈ g.next a)
    (h : g.Reaches b c) : g.Reaches a c := by
  induction h with
  | refl hb => exact .tail (.refl ha) hab hb
  | tail _ hs hn ih => exact .tail ih hs hn

variable [Ord α] [Std.TransOrd α] [Std.LawfulEqOrd α] {g : Graph α}

/-! ## Walks -/

/-- The stack before and after one step of a walk, and what was seen. -/
theorem walk_induction {motive : List (α × List α) → Std.TreeSet α → Prop}
    (nil : ∀ seen, motive [] seen)
    (visit : ∀ a trail stack seen, g.isNode a = true → ¬ a ∈ seen →
      motive ((g.next a).map (·, a :: trail) ++ stack) (seen.insert a) →
      motive ((a, trail) :: stack) seen)
    (skip : ∀ a trail stack seen, ¬ (g.isNode a = true ∧ ¬ a ∈ seen) → motive stack seen →
      motive ((a, trail) :: stack) seen)
    (stack : List (α × List α)) (seen : Std.TreeSet α) : motive stack seen := by
  refine walk.induct g motive nil (fun seen a trail stack h ih => ?_)
    (fun seen a trail stack h ih => ?_) stack seen
  · apply visit a trail stack seen h.1 h.2
    simpa using ih
  · exact skip a trail stack seen h ih

theorem walk_nil (stop : α → Bool) (seen : Std.TreeSet α) : g.walk stop [] seen = [] := by
  rw [walk]

theorem walk_visit (stop : α → Bool) {a : α} (trail : List α) (stack : List (α × List α))
    {seen : Std.TreeSet α} (hn : g.isNode a = true) (hs : ¬ a ∈ seen) :
    g.walk stop ((a, trail) :: stack) seen =
      (a, trail) ::
        if stop a then []
        else g.walk stop ((g.next a).map (·, a :: trail) ++ stack) (seen.insert a) := by
  rw [walk, dif_pos ⟨hn, hs⟩]

theorem walk_skip (stop : α → Bool) {a : α} (trail : List α) (stack : List (α × List α))
    {seen : Std.TreeSet α} (h : ¬ (g.isNode a = true ∧ ¬ a ∈ seen)) :
    g.walk stop ((a, trail) :: stack) seen = g.walk stop stack seen := by
  rw [walk, dif_neg h]

/-- What a walk visits is reached from its stack. -/
theorem reaches_of_mem_walk {stop : α → Bool} {stack : List (α × List α)} {seen : Std.TreeSet α}
    {a : α} (h : a ∈ (g.walk stop stack seen).map Prod.fst) :
    ∃ s ∈ stack.map Prod.fst, g.Reaches s a := by
  induction stack, seen using walk_induction (g := g) with
  | nil seen => simp [walk_nil] at h
  | visit b trail stack seen hn hs ih =>
    rw [walk_visit stop trail stack hn hs, List.map_cons, List.mem_cons] at h
    rcases h with rfl | h
    · exact ⟨a, by simp, .refl hn⟩
    -- A walk that stops at `b` ends there; one that goes on is over the successors of `b` and the
    -- rest of the stack.
    split at h
    · simp at h
    obtain ⟨s, hs, hr⟩ := ih h
    rw [List.map_append, List.mem_append] at hs
    rcases hs with hs | hs
    · have hnext : s ∈ g.next b := by simpa [Function.comp_def] using hs
      exact ⟨b, by simp, hr.head hn hnext⟩
    · exact ⟨s, List.mem_cons_of_mem _ hs, hr⟩
  | skip b trail stack seen hb ih =>
    rw [walk_skip stop trail stack hb] at h
    obtain ⟨s, hs, hr⟩ := ih h
    exact ⟨s, List.mem_cons_of_mem _ hs, hr⟩

/-- A walk visits no node twice, and none that was seen before it. -/
theorem nodup_walk (stop : α → Bool) (stack : List (α × List α)) (seen : Std.TreeSet α) :
    ((g.walk stop stack seen).map Prod.fst).Nodup ∧
      ∀ a ∈ (g.walk stop stack seen).map Prod.fst, ¬ a ∈ seen := by
  induction stack, seen using walk_induction (g := g) with
  | nil seen => simp [walk_nil]
  | visit b trail stack seen hn hs ih =>
    rw [walk_visit stop trail stack hn hs, List.map_cons, List.nodup_cons]
    split
    · simp [hs]
    obtain ⟨hnd, hseen⟩ := ih
    refine ⟨⟨fun hm => hseen b hm Std.TreeSet.mem_insert_self, hnd⟩, ?_⟩
    intro a ha
    rcases List.mem_cons.mp ha with rfl | ha
    · exact hs
    · exact fun h => hseen a ha (Std.TreeSet.mem_insert.mpr (.inr h))
  | skip b trail stack seen hb ih =>
    rw [walk_skip stop trail stack hb]
    exact ih

/-- What is seen or visited after one step of a walk is seen or visited by the whole walk. -/
theorem visited_of_later {a b : α} {trail : List α} {stack : List (α × List α)}
    {seen : Std.TreeSet α} (hn : g.isNode b = true) (hs : ¬ b ∈ seen)
    (h : a ∈ seen.insert b ∨ a ∈ (g.walk (fun _ => false)
      ((g.next b).map (·, b :: trail) ++ stack) (seen.insert b)).map Prod.fst) :
    a ∈ seen ∨ a ∈ (g.walk (fun _ => false) ((b, trail) :: stack) seen).map Prod.fst := by
  rw [walk_visit _ trail stack hn hs, List.map_cons, List.mem_cons]
  rcases h with h | h
  · rcases Std.TreeSet.mem_insert.mp h with h | h
    · exact .inr (.inl (Std.LawfulEqOrd.eq_of_compare h).symm)
    · exact .inl h
  · exact .inr (.inr h)

/-- The nodes on the stack are visited, unless they were seen before. -/
theorem stack_visited {stack : List (α × List α)} {seen : Std.TreeSet α} {a : α}
    (hs : a ∈ stack.map Prod.fst) (hn : g.isNode a = true) :
    a ∈ seen ∨ a ∈ (g.walk (fun _ => false) stack seen).map Prod.fst := by
  induction stack, seen using walk_induction (g := g) with
  | nil seen => simp at hs
  | visit b trail stack seen hb hnew ih =>
    apply visited_of_later hb hnew
    rcases List.mem_cons.mp hs with rfl | hs
    · exact .inl Std.TreeSet.mem_insert_self
    · exact ih (by rw [List.map_append, List.mem_append]; exact .inr hs)
  | skip b trail stack seen hb ih =>
    rw [walk_skip _ trail stack hb]
    rcases List.mem_cons.mp hs with rfl | hs
    · exact .inl (Decidable.byContradiction fun h => hb ⟨hn, h⟩)
    · exact ih hs

/-- No step leads out of what was visited or seen before. -/
theorem visited_closed {stack : List (α × List α)} {seen : Std.TreeSet α} {a b : α}
    (ha : a ∈ (g.walk (fun _ => false) stack seen).map Prod.fst) (hab : b ∈ g.next a)
    (hn : g.isNode b = true) :
    b ∈ seen ∨ b ∈ (g.walk (fun _ => false) stack seen).map Prod.fst := by
  induction stack, seen using walk_induction (g := g) with
  | nil seen => simp [walk_nil] at ha
  | visit x trail stack seen hx hnew ih =>
    apply visited_of_later hx hnew
    rw [walk_visit _ trail stack hx hnew, List.map_cons, List.mem_cons] at ha
    -- The successors of the node that was just visited are on the stack after it.
    rcases ha with rfl | ha
    · exact stack_visited (by simp [Function.comp_def, hab]) hn
    · exact ih ha
  | skip x trail stack seen hx ih =>
    rw [walk_skip _ trail stack hx] at ha ⊢
    exact ih ha

theorem nodup_reachable (g : Graph α) (starts : List α) : (g.reachable starts).Nodup :=
  (nodup_walk _ _ _).1

/-- What is listed as reachable are the nodes that the starting points reach. -/
theorem mem_reachable {starts : List α} {a : α} :
    a ∈ g.reachable starts ↔ ∃ s ∈ starts, g.Reaches s a := by
  have fst_starts : (starts.map (·, ([] : List α))).map Prod.fst = starts := by
    simp [Function.comp_def]
  constructor
  · intro h
    obtain ⟨s, hs, hr⟩ := reaches_of_mem_walk h
    exact ⟨s, by rwa [fst_starts] at hs, hr⟩
  -- Along a path of the graph, what was visited is closed under steps.
  · intro h
    obtain ⟨s, hs, hr⟩ := h
    induction hr with
    | refl hn =>
      have hmem : s ∈ (starts.map (·, ([] : List α))).map Prod.fst := by rwa [fst_starts]
      have hvisited : s ∈ (∅ : Std.TreeSet α) ∨ s ∈ g.reachable starts := stack_visited hmem hn
      exact hvisited.resolve_left Std.TreeSet.not_mem_emptyc
    | tail _ hstep hn ih =>
      exact (visited_closed ih hstep hn).resolve_left Std.TreeSet.not_mem_emptyc

end PositionAutomata.Graph
