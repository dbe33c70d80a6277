import Mathlib.Data.List.Basic
import Mathlib.Data.List.Induction
import Mathlib.Data.Nat.Find
import Mathlib.Order.Bounds.Basic
import PositionAutomata.Automaton.Matching
import PositionAutomata.Proofs.Graph

/-
  Runs as reached states.

  `Automaton.Reached` says which states an automaton can be in after a number
  of characters of a text. The sets of a course hold exactly these states
  (`mem_course`), so a run answers the least symbol of a state that is reached
  after the last character (`run_eq_some_iff`), a longest match ends where a
  symbol is last reported (`longestPrefix_eq_some_iff`), and two automata in
  which the same symbols are reported agree on the text (`run_congr`,
  `longestMatch_congr`).
-/

namespace PositionAutomata

/-- Numbers of which there are some have a least one. -/
theorem exists_isLeast {s : Set Nat} (h : s.Nonempty) : ∃ n, IsLeast s n := by
  classical
  exact ⟨Nat.find h, Nat.find_spec h, fun _ hm => Nat.find_min' h hm⟩

/-- The least of the values that some members of a set have. -/
theorem SortedSet.min?_filterMap_eq_some_iff {s : SortedSet} {f : Nat → Option Nat} {k : Nat} :
    (s.toList.filterMap f).min? = some k ↔ IsLeast {j | ∃ x ∈ s, f x = some j} k := by
  have hmem : ∀ j, j ∈ s.toList.filterMap f ↔ ∃ x ∈ s, f x = some j := fun j =>
    List.mem_filterMap
  rw [List.min?_eq_some_iff, hmem]
  simp only [hmem]
  exact Iff.rfl

namespace Automaton

/-- The states that can be entered after the first `i` characters of a text. -/
inductive Reached (a : Automaton) (text : List Char) : Nat → StateId → Prop where
  | start : a.start < a.size → Reached a text 0 a.start
  | anchor {i : Nat} {q : StateId} {s : State} {t : Transition} : Reached a text i q →
      a.get? q = some s → t ∈ s.transitions → t.range.holdsAt text.toArray i = true →
      t.target < a.size → Reached a text i t.target
  | read {i : Nat} {q r : StateId} {s : State} {c : Char} : Reached a text i q →
      a.get? q = some s → text[i]? = some c → s.next? c.toNat = some r → r < a.size →
      Reached a text (i + 1) r

/-- A symbol that is accepted by a state reached after the first `i` characters. -/
def Reports (a : Automaton) (text : List Char) (i k : Nat) : Prop :=
  ∃ q, a.Reached text i q ∧ a.accept q = some k

variable {a : Automaton} {text : List Char}

theorem lt_size_of_get? {q : StateId} {s : State} (h : a.get? q = some s) : q < a.size := by
  obtain ⟨hlt, _⟩ := Array.getElem?_eq_some_iff.mp h
  exact hlt

theorem exists_get? {q : StateId} (h : q < a.size) : ∃ s, a.get? q = some s :=
  ⟨a.states[q], Array.getElem?_eq_getElem h⟩

theorem Reached.lt_size {i : Nat} {q : StateId} (h : a.Reached text i q) : q < a.size := by
  cases h with
  | start h => exact h
  | anchor _ _ _ _ h => exact h
  | read _ _ _ _ h => exact h

/-! ## One step of the course -/

/-- A number without a state has no transitions. -/
theorem mem_elim_transitions {q : StateId} {t : Transition} :
    t ∈ (a.get? q).elim [] State.transitions ↔ ∃ s, a.get? q = some s ∧ t ∈ s.transitions := by
  cases a.get? q with
  | none => exact ⟨nofun, nofun⟩
  | some s => exact ⟨fun h => ⟨s, rfl, h⟩, fun ⟨_, hs, h⟩ => Option.some.inj hs ▸ h⟩

theorem isNode_anchorGraph {i : Nat} {q : StateId} :
    (a.anchorGraph text.toArray i).isNode q = true ↔ q < a.size := decide_eq_true_iff

theorem mem_next_anchorGraph {i : Nat} {q r : StateId} :
    r ∈ (a.anchorGraph text.toArray i).next q ↔
      ∃ s, a.get? q = some s ∧
        ∃ t ∈ s.transitions, t.range.holdsAt text.toArray i = true ∧ t.target = r := by
  constructor
  · intro h
    obtain ⟨t, ht, h⟩ := List.mem_filterMap.mp h
    obtain ⟨s, hs, ht⟩ := mem_elim_transitions.mp ht
    obtain ⟨hh, h⟩ := Option.ite_none_right_eq_some.mp h
    exact ⟨s, hs, t, ht, hh, Option.some.inj h⟩
  · intro h
    obtain ⟨s, hs, t, ht, hh, rfl⟩ := h
    exact List.mem_filterMap.mpr ⟨t, mem_elim_transitions.mpr ⟨s, hs, ht⟩, if_pos hh⟩

theorem mem_settle {i : Nat} {s : SortedSet} {q : StateId} :
    q ∈ a.settle text.toArray i s ↔ ∃ p ∈ s, (a.anchorGraph text.toArray i).Reaches p q := by
  rw [settle, SortedSet.mem_ofList, Graph.mem_reachable]
  rfl

theorem mem_advance {s : SortedSet} {c : Char} {r : StateId} :
    r ∈ a.advance s c ↔ ∃ q ∈ s, ∃ st, a.get? q = some st ∧ st.next? c.toNat = some r := by
  simp only [advance, SortedSet.mem_ofList, List.mem_filterMap, Option.bind_eq_some_iff]
  rfl

/-- The states reached without reading from those reached without reading are reached. -/
theorem Reached.settle {i : Nat} {q r : StateId} (hq : a.Reached text i q)
    (h : (a.anchorGraph text.toArray i).Reaches q r) : a.Reached text i r := by
  induction h with
  | refl _ => exact hq
  | tail _ hnext hn ih =>
    obtain ⟨s, hs, t, ht, hh, rfl⟩ := mem_next_anchorGraph.mp hnext
    exact .anchor ih hs ht hh (isNode_anchorGraph.mp hn)

theorem reached_zero {q : StateId} :
    a.Reached text 0 q ↔ q ∈ a.settle text.toArray 0 (.singleton a.start) := by
  rw [mem_settle]
  constructor
  · intro h
    -- Nothing is read before offset 0, so only steps by anchors lead there.
    generalize hi : 0 = i at h
    induction h with
    | start hs =>
      exact ⟨_, SortedSet.mem_singleton.mpr rfl, .refl (isNode_anchorGraph.mpr hs)⟩
    | anchor _ hs ht hh hlt ih =>
      obtain ⟨p, hp, hr⟩ := ih hi
      subst hi
      exact ⟨p, hp, hr.tail (mem_next_anchorGraph.mpr ⟨_, hs, _, ht, hh, rfl⟩)
        (isNode_anchorGraph.mpr hlt)⟩
    | read _ _ _ _ _ _ => exact absurd hi (by simp)
  · intro h
    obtain ⟨p, hp, hr⟩ := h
    obtain rfl := SortedSet.mem_singleton.mp hp
    cases hr with
    | refl hs => exact .start (isNode_anchorGraph.mp hs)
    | tail hr hnext hn =>
      -- The start is a node of the graph since a step leaves from it.
      have hs : a.start < a.size := by
        clear hnext hn
        induction hr with
        | refl hs => exact isNode_anchorGraph.mp hs
        | tail _ _ _ ih => exact ih
      exact (Reached.start hs).settle (hr.tail hnext hn)

theorem reached_succ {i : Nat} {c : Char} {s : SortedSet} (hc : text[i]? = some c)
    (hs : ∀ q, q ∈ s ↔ a.Reached text i q) {r : StateId} :
    a.Reached text (i + 1) r ↔ r ∈ a.settle text.toArray (i + 1) (a.advance s c) := by
  rw [mem_settle]
  constructor
  · intro h
    generalize hj : i + 1 = j at h
    induction h with
    | start _ => exact absurd hj (by omega)
    | anchor _ hg ht hh hlt ih =>
      obtain ⟨p, hp, hr⟩ := ih hj
      subst hj
      exact ⟨p, hp, hr.tail (mem_next_anchorGraph.mpr ⟨_, hg, _, ht, hh, rfl⟩)
        (isNode_anchorGraph.mpr hlt)⟩
    | read hq hg hc' hn hlt _ =>
      obtain rfl : i = _ := Nat.succ.inj hj
      rw [hc] at hc'
      cases hc'
      exact ⟨_, mem_advance.mpr ⟨_, (hs _).mpr hq, _, hg, hn⟩,
        .refl (isNode_anchorGraph.mpr hlt)⟩
  · intro h
    obtain ⟨p, hp, hr⟩ := h
    obtain ⟨q, hq, st, hg, hn⟩ := mem_advance.mp hp
    have hlt : p < a.size := by
      clear hp hn
      induction hr with
      | refl hs => exact isNode_anchorGraph.mp hs
      | tail _ _ _ ih => exact ih
    exact (Reached.read ((hs q).mp hq) hg hc hn hlt).settle hr

/-! ## Courses and runs -/

/-- To be somewhere after `j` characters is to have been somewhere before. -/
theorem exists_reached_of_le {i j : Nat} {q : StateId} (h : a.Reached text j q) (hij : i ≤ j) :
    ∃ r, a.Reached text i r := by
  induction h with
  | start hs =>
    obtain rfl := Nat.le_zero.mp hij
    exact ⟨_, .start hs⟩
  | anchor _ _ _ _ _ ih => exact ih hij
  | read hq hg hc hn hlt ih =>
    rcases Nat.le_succ_iff.mp hij with hle | rfl
    · exact ih hle
    · exact ⟨_, .read hq hg hc hn hlt⟩

theorem mem_courseFrom {rest : List Char} {i : Nat} {s : SortedSet} (hrest : text.drop i = rest)
    (hs : ∀ q, q ∈ s ↔ a.Reached text i q) {n : Nat} (hn : n ≤ rest.length) {q : StateId} :
    (∃ u, (a.courseFrom text.toArray i s rest)[n]? = some u ∧ q ∈ u) ↔
      a.Reached text (i + n) q := by
  -- The set `s` holds what is reached at `i`, and one step of the course keeps it so at `i + 1`.
  induction rest generalizing i s n with
  | nil =>
    obtain rfl : n = 0 := by simpa using hn
    simp [courseFrom, hs]
  | cons c rest ih =>
    cases n with
    | zero => simp [courseFrom, hs]
    | succ n =>
      have hc : text[i]? = some c := by
        rw [← List.head?_drop, hrest, List.head?_cons]
      have hdrop : text.drop (i + 1) = rest := by
        rw [← List.tail_drop, hrest, List.tail_cons]
      have hstep : ∀ r, r ∈ a.settle text.toArray (i + 1) (a.advance s c) ↔
          a.Reached text (i + 1) r := fun r => (reached_succ hc hs).symm
      rw [courseFrom, List.getElem?_cons_succ, show i + (n + 1) = i + 1 + n by omega]
      -- The course breaks off where no state is left, and from there on none is reached.
      by_cases he : (a.advance s c).isEmpty = true
      · simp only [he, if_true, List.getElem?_nil, reduceCtorEq, false_and, exists_false, false_iff]
        intro h
        obtain ⟨r, hr⟩ := exists_reached_of_le h (Nat.le_add_right (i + 1) n)
        obtain ⟨p, hp, _⟩ := mem_settle.mp ((hstep r).mpr hr)
        rw [SortedSet.isEmpty_iff.mp he] at hp
        exact SortedSet.not_mem_empty hp
      · simp only [he, Bool.false_eq_true, if_false]
        exact ih hdrop hstep (Nat.le_of_succ_le_succ hn)

/-- The course lists the sets of reached states. -/
theorem mem_course {n : Nat} (hn : n ≤ text.length) {q : StateId} :
    (∃ s, (a.course text)[n]? = some s ∧ q ∈ s) ↔ a.Reached text n q := by
  rw [course, mem_courseFrom (List.drop_zero) (fun q => reached_zero.symm) hn, Nat.zero_add]

theorem best_eq_some_iff {s : SortedSet} {k : Nat} :
    a.best s = some k ↔ IsLeast {j | ∃ q ∈ s, a.accept q = some j} k :=
  SortedSet.min?_filterMap_eq_some_iff

/-- The least symbol of a set of the course is the least one that is reported there. -/
theorem best_course_eq_some_iff {n k : Nat} (hn : n ≤ text.length) :
    (a.course text)[n]?.bind a.best = some k ↔ IsLeast {j | a.Reports text n j} k := by
  have hcourse := @mem_course a text n hn
  cases h : (a.course text)[n]? with
  | none =>
    -- A course that broke off reaches no state from there on.
    refine ⟨fun h => absurd h (by simp), fun hk => ?_⟩
    obtain ⟨q, hq, _⟩ := hk.1
    obtain ⟨s, hs, _⟩ := hcourse.mpr hq
    rw [h] at hs
    exact absurd hs (by simp)
  | some s =>
    have hs : ∀ q, q ∈ s ↔ a.Reached text n q := by
      intro q
      rw [← hcourse, h]
      simp
    rw [Option.bind_some, best_eq_some_iff]
    simp only [hs, Reports]

/-- A text is accepted with the least symbol that is reported at its end. -/
theorem run_eq_some_iff {k : Nat} :
    a.run text = some k ↔ IsLeast {j | a.Reports text text.length j} k :=
  best_course_eq_some_iff (Nat.le_refl _)

theorem run_eq_none_iff : a.run text = none ↔ ∀ k, ¬ a.Reports text text.length k := by
  constructor
  · intro h k hk
    obtain ⟨m, hm⟩ := exists_isLeast (s := {j | a.Reports text text.length j}) ⟨k, hk⟩
    rw [run_eq_some_iff.mpr hm] at h
    exact absurd h (by simp)
  · intro h
    cases hr : a.run text with
    | none => rfl
    | some k => exact absurd (run_eq_some_iff.mp hr).1 (h k)

/-- Automata that report the same symbols at the end of a text agree on it. -/
theorem run_congr {b : Automaton}
    (h : ∀ k, a.Reports text text.length k ↔ b.Reports text text.length k) :
    a.run text = b.run text := by
  apply Option.ext
  intro k
  rw [run_eq_some_iff, run_eq_some_iff]
  simp only [h]

/-! ## Longest matches -/

theorem Reached.le_length {i : Nat} {q : StateId} (h : a.Reached text i q) : i ≤ text.length := by
  induction h with
  | start _ => exact Nat.zero_le _
  | anchor _ _ _ _ _ ih => exact ih
  | read _ _ hc _ _ _ => exact (List.getElem?_eq_some_iff.mp hc).1

theorem Reports.le_length {i k : Nat} (h : a.Reports text i k) : i ≤ text.length := by
  obtain ⟨q, hq, _⟩ := h
  exact hq.le_length

theorem length_courseFrom_le (array : Array Char) (rest : List Char) (i : Nat) (s : SortedSet) :
    (a.courseFrom array i s rest).length ≤ rest.length + 1 := by
  induction rest generalizing i s with
  | nil => exact Nat.le_refl _
  | cons c rest ih =>
    rw [courseFrom, List.length_cons, List.length_cons]
    split
    · exact Nat.le_add_left _ _
    · exact Nat.succ_le_succ (ih _ _)

/-- The last element of a list with a value under a partial map, and where it stands. -/
theorem findSome?_reverse_zipIdx {α : Type} (f : α → Option Nat) (xs : List α) {k n : Nat} :
    (xs.zipIdx.reverse.findSome? fun (x, i) => (f x).map (·, i)) = some (k, n) ↔
      xs[n]?.bind f = some k ∧ ∀ m, n < m → xs[m]?.bind f = none := by
  induction xs using List.reverseRecOn with
  | nil => simp
  | append_singleton xs x ih =>
    have hfind : ((xs ++ [x]).zipIdx.reverse.findSome? fun (x, i) => (f x).map (·, i)) =
        ((f x).map (·, xs.length)).or
          (xs.zipIdx.reverse.findSome? fun (x, i) => (f x).map (·, i)) := by
      rw [List.zipIdx_append, List.reverse_append, List.zipIdx_singleton, List.reverse_singleton,
        List.singleton_append, List.findSome?_cons, Nat.zero_add]
      cases hx : f x <;> simp [hx]
    have hget : ∀ m, (xs ++ [x])[m]?.bind f =
        if m = xs.length then f x else xs[m]?.bind f := by
      intro m
      rw [List.getElem?_append, List.getElem?_singleton]
      grind
    have hbeyond : ∀ m, xs.length ≤ m → xs[m]?.bind f = none := by
      intro m hm
      rw [List.getElem?_eq_none hm]
      rfl
    rw [hfind]
    simp only [hget]
    cases hx : f x with
    | none => grind
    | some j =>
      rw [Option.map_some, Option.or, Option.some.injEq, Prod.mk.injEq]
      grind

/-- The longest accepted beginning of a text is the last one at which a symbol is reported, and
comes with the least symbol there. -/
theorem longestPrefix_eq_some_iff {k n : Nat} :
    a.longestPrefix text = some (k, n) ↔
      IsLeast {j | a.Reports text n j} k ∧ ∀ m j, a.Reports text m j → m ≤ n := by
  have length : ∀ m, text.length < m → (a.course text)[m]?.bind a.best = none := by
    intro m hm
    have hlen := length_courseFrom_le (a := a) text.toArray text 0
      (a.settle text.toArray 0 (.singleton a.start))
    rw [course, List.getElem?_eq_none (by omega)]
    rfl
  have none_iff : ∀ m, m ≤ text.length →
      ((a.course text)[m]?.bind a.best = none ↔ ∀ j, ¬ a.Reports text m j) := by
    intro m hm
    rw [Option.eq_none_iff_forall_ne_some]
    simp only [ne_eq, best_course_eq_some_iff hm]
    constructor
    · intro h j hj
      obtain ⟨l, hl⟩ := exists_isLeast (s := {j | a.Reports text m j}) ⟨j, hj⟩
      exact h l hl
    · intro h l hl
      exact h l hl.1
  rw [longestPrefix, findSome?_reverse_zipIdx]
  constructor
  · intro ⟨hk, hlater⟩
    have hn : n ≤ text.length := by
      by_contra hn
      rw [length n (Nat.lt_of_not_le hn)] at hk
      exact absurd hk (by simp)
    refine ⟨(best_course_eq_some_iff hn).mp hk, fun m j hj => ?_⟩
    by_contra hm
    exact (none_iff m hj.le_length).mp (hlater m (Nat.lt_of_not_le hm)) j hj
  · intro ⟨hk, hlater⟩
    refine ⟨(best_course_eq_some_iff hk.1.le_length).mpr hk, fun m hm => ?_⟩
    rcases Nat.lt_or_ge text.length m with hlt | hle
    · exact length m hlt
    · exact (none_iff m hle).mpr fun j hj => absurd (hlater m j hj) (Nat.not_le.mpr hm)

/-- Automata that report the same symbols after each number of characters have the same longest
match. -/
theorem longestMatch_congr {b : Automaton}
    (h : ∀ i k, a.Reports text i k ↔ b.Reports text i k) :
    a.longestMatch text = b.longestMatch text := by
  have hprefix : a.longestPrefix text = b.longestPrefix text := by
    apply Option.ext
    intro ⟨k, n⟩
    rw [longestPrefix_eq_some_iff, longestPrefix_eq_some_iff]
    simp only [h]
  rw [longestMatch, longestMatch, hprefix]

end Automaton

end PositionAutomata
