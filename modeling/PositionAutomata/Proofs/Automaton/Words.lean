import PositionAutomata.Proofs.Automaton.Renumbering

/-
  Following words.

  A word is a list of code points, and `Automaton.follow?` is the state in which
  it ends when it is read from a state without taking an anchor. Each code point
  is read by a transition of the state that the word has led to
  (`next?_eq_some_iff`). Following goes with renumbering (`follow?_newId`), and
  where a text is followed the state is reached (`reached_of_follow?`).
-/

namespace PositionAutomata.Automaton

variable {a : Automaton} {q r : StateId} {c : Nat} {w : List Nat}

/-- Where a state leads by reading a code point. -/
def next? (a : Automaton) (q : StateId) (c : Nat) : Option StateId := (a.get? q).bind (·.next? c)

/-- Where a state leads by reading a word. -/
def follow? (a : Automaton) (q : StateId) (w : List Nat) : Option StateId := w.foldlM a.next? q

theorem follow?_concat : a.follow? q (w ++ [c]) = (a.follow? q w).bind (a.next? · c) := by
  rw [follow?, List.foldlM_append, follow?]
  cases List.foldlM a.next? q w with
  | none => rfl
  | some p => exact bind_pure (a.next? p c)

/-- A word is followed to its end if it is up to its last code point, and this one is read there. -/
theorem follow?_concat_eq_some_iff :
    a.follow? q (w ++ [c]) = some r ↔ ∃ p, a.follow? q w = some p ∧ a.next? p c = some r := by
  rw [follow?_concat, Option.bind_eq_some_iff]

theorem next?_eq_some_iff (hcon : a.Consistent) :
    a.next? q c = some r ↔ ∃ s, a.get? q = some s ∧
      ∃ t ∈ s.transitions, t.range.isAnchor = false ∧ t.range.contains c = true ∧ t.target = r := by
  rw [next?, Option.bind_eq_some_iff]
  exact exists_congr fun s => and_congr_right fun hs => (hcon q s hs).next?_eq_some_iff

theorem mem_successors_of_next? (h : a.next? q c = some r) : r ∈ a.successors q := by
  obtain ⟨s, hs, hn⟩ := Option.bind_eq_some_iff.mp h
  obtain ⟨t, ht, _, _, htarget⟩ := State.exists_of_next? hn
  exact mem_successors.mpr ⟨s, hs, t, ht, htarget⟩

/-! ## Renumbered automata -/

theorem next?_newId (hq : q ∈ a.order) :
    a.retainReachable.next? (a.newId q) c = (a.next? q c).map a.newId := by
  rw [next?, next?, get?_newId hq]
  cases a.get? q with
  | none => rfl
  | some s => exact next?_renumberState _ s c

theorem mem_order_of_follow? (wf : a.WellFormed) (hq : q ∈ a.order)
    (h : a.follow? q w = some r) : r ∈ a.order := by
  induction w using List.reverseRecOn generalizing r with
  | nil =>
    obtain rfl := Option.some.inj h
    exact hq
  | append_singleton w c ih =>
    obtain ⟨p, hp, hn⟩ := follow?_concat_eq_some_iff.mp h
    exact successor_mem_order wf (ih hp) (mem_successors_of_next? hn)

/-- After renumbering a word leads to the new number of the state that it led to. -/
theorem follow?_newId (wf : a.WellFormed) (hq : q ∈ a.order) :
    a.retainReachable.follow? (a.newId q) w = (a.follow? q w).map a.newId := by
  induction w using List.reverseRecOn with
  | nil => rfl
  | append_singleton w c ih =>
    rw [follow?_concat, follow?_concat, ih]
    cases hp : a.follow? q w with
    | none => rfl
    | some p => exact next?_newId (mem_order_of_follow? wf hq hp)

theorem follow?_retainReachable (wf : a.WellFormed) :
    a.retainReachable.follow? a.retainReachable.start w = (a.follow? a.start w).map a.newId := by
  have hstart : a.retainReachable.start = a.newId a.start :=
    (newId_of_getElem? (start_mem_head? wf.1)).symm
  rw [hstart]
  exact follow?_newId wf (start_mem_order wf.1)

/-! ## Texts -/

/-- Where a beginning of a text is followed, the text reaches the state in which it ends. -/
theorem reached_of_follow? (wf : a.WellFormed) {u : List Char} (v : List Char)
    (h : a.follow? a.start (u.map Char.toNat) = some q) : a.Reached (u ++ v) u.length q := by
  induction u using List.reverseRecOn generalizing q v with
  | nil =>
    obtain rfl := Option.some.inj h
    exact .start wf.1
  | append_singleton u c ih =>
    rw [List.map_append] at h
    obtain ⟨p, hp, hn⟩ := follow?_concat_eq_some_iff.mp h
    obtain ⟨s, hs, hnext⟩ := Option.bind_eq_some_iff.mp hn
    have hreached := ih (c :: v) hp
    have hlt := wf.2 p q (mem_successors_of_next? hn)
    rw [List.append_assoc, List.length_append, List.length_singleton]
    exact hreached.read hs (by simp) hnext hlt

end PositionAutomata.Automaton
