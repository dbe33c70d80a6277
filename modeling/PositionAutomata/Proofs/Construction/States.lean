import PositionAutomata.Proofs.Automaton.Labels
import PositionAutomata.Proofs.Construction.Synthesis

/-
  The states of built automata.

  A state of a built automaton is one of the synthesized automaton with some of
  its transitions and under another number (`exists_within_synthesized`). So its
  labels are letters: no two of them have a value in common
  (`separated_ofAnalysis`), and none mixes code points and anchors
  (`isUniform_ofAnalysis`). The state carries the events of its key, and it is
  reached only where the key is entered (`exists_enters_of_reached`).
-/

namespace PositionAutomata

theorem Alphabet.isUniform_of_mem_letters {rs : List Range} {l : Range}
    (h : l ∈ (ofRanges rs).letters) : l.IsUniform :=
  (bounds_of_mem_letters h).imp id And.left

/-- A state has the events of another one, and some of its labels. -/
structure State.Within (s u : State) : Prop where
  labels : (s.transitions.map Transition.range).Sublist (u.transitions.map Transition.range)
  events : s.events = u.events

namespace State.Within

variable {s u v : State}

theorem trans (h : s.Within u) (h' : u.Within v) : s.Within v :=
  ⟨h.labels.trans h'.labels, h.events.trans h'.events⟩

theorem filter (s : State) (keep : Transition → Bool) :
    Within { s with transitions := s.transitions.filter keep } s :=
  ⟨List.filter_sublist.map _, rfl⟩

theorem renumber (f : StateId → StateId) (s : State) :
    (Automaton.renumberState f s).Within s := by
  refine ⟨?_, rfl⟩
  rw [Automaton.renumberState, List.map_map]
  exact List.Sublist.refl _

theorem separated (h : s.Within u) (hu : u.Separated) : s.Separated := by
  have hlabels : (u.transitions.map Transition.range).Pairwise fun x y => x.intersects y = false :=
    List.pairwise_map.mpr hu
  exact List.pairwise_map.mp (hlabels.sublist h.labels)

end State.Within

namespace Analysis

variable {a : Analysis} {c : Config} {q : StateId} {s : State}

/-- The pruned automaton with the transitions that are kept, before it is renumbered. -/
def kept (a : Analysis) (c : Config) : Automaton :=
  (a.pruned c).filterTransitions (a.keptTransition c)

theorem exists_kept_eq (a : Analysis) (c : Config) : ∃ test, a.kept c =
    (a.synthesized.filterTransitions (a.keptTransition c)).filterTransitions test := by
  obtain ⟨test, htest⟩ := exists_pruned_eq a c
  exact ⟨test, by rw [kept, htest, Automaton.filterTransitions_comm]⟩

theorem wellFormed_kept (hb : a.Bounded) (c : Config) : (a.kept c).WellFormed := by
  obtain ⟨test, htest⟩ := exists_kept_eq a c
  rw [htest]
  exact ((wellFormed_synthesized hb).filterTransitions _).filterTransitions _

theorem wellFormed_ofAnalysis (hb : a.Bounded) (c : Config) :
    (Automaton.ofAnalysis a c).WellFormed := by
  rw [ofAnalysis_eq, ← kept]
  exact (wellFormed_kept hb c).retainReachable

/-- The states of a built automaton are numbered as the start reaches them. -/
theorem closure_ofAnalysis (hb : a.Bounded) (c : Config) :
    (Automaton.ofAnalysis a c).closure 0 = List.range (Automaton.ofAnalysis a c).size := by
  rw [ofAnalysis_eq, ← kept]
  exact Automaton.closure_retainReachable (wellFormed_kept hb c)

/-- A state of a built automaton is one of the synthesized automaton with some of its transitions,
renumbered. -/
theorem exists_within_synthesized (h : (Automaton.ofAnalysis a c).get? q = some s) :
    ∃ p u, (a.kept c).order[q]? = some p ∧ a.synthesized.get? p = some u ∧ s.Within u := by
  rw [ofAnalysis_eq, ← kept, Automaton.get?_retainReachable] at h
  obtain ⟨p, hp, h⟩ := Option.bind_eq_some_iff.mp h
  obtain ⟨v, hv, rfl⟩ := Option.map_eq_some_iff.mp h
  obtain ⟨test, htest⟩ := exists_kept_eq a c
  rw [htest, Automaton.get?_filterTransitions, Automaton.get?_filterTransitions, Option.map_map,
    Option.map_eq_some_iff] at hv
  obtain ⟨u, hu, rfl⟩ := hv
  exact ⟨p, u, hp, hu, (State.Within.renumber _ _).trans ((State.Within.filter _ _).trans
    (State.Within.filter _ _))⟩

theorem separated_ofAnalysis (hb : a.Bounded) (hp : a.Partitioned) (c : Config) :
    (Automaton.ofAnalysis a c).Separated := by
  intro q s hs
  obtain ⟨p, u, _, hu, hw⟩ := exists_within_synthesized hs
  exact hw.separated (separated_synthesized hb hp p u hu)

/-- The labels of a built automaton are letters. -/
theorem range_mem_letters (hb : a.Bounded) (h : s ∈ (Automaton.ofAnalysis a c).states)
    {t : Transition} (ht : t ∈ s.transitions) : t.range ∈ a.alphabet.letters := by
  obtain ⟨q, hq⟩ := Array.mem_iff_getElem?.mp h
  obtain ⟨p, u, _, hget, hw⟩ := exists_within_synthesized hq
  obtain ⟨k, hk⟩ := exists_key hget
  obtain ⟨v, hv, hlabel⟩ := List.mem_map.mp (hw.labels.subset (List.mem_map_of_mem ht))
  rw [← hlabel]
  exact ((mem_transitions hb hk hget).mp hv).1

theorem isUniform_ofAnalysis (hb : a.Bounded) (hu : ∀ l ∈ a.alphabet.letters, l.IsUniform)
    (c : Config) : ∀ s ∈ (Automaton.ofAnalysis a c).states, s.IsUniform :=
  fun _ hs _ ht => hu _ (range_mem_letters hb hs ht)

/-- A state that is reached is the one of a key that is entered, and carries its events. -/
theorem exists_enters_of_reached (hb : a.Bounded) (hl : a.Lettered) {text : List Char} {i : Nat}
    (h : (Automaton.ofAnalysis a c).Reached text i q) :
    ∃ k s, a.Enters (a.Keeps c) text i k ∧ (Automaton.ofAnalysis a c).get? q = some s ∧
      s.events = a.events.ofSet k.positions := by
  obtain ⟨s, hs⟩ := Automaton.exists_get? h.lt_size
  obtain ⟨p, u, hp, hu, hw⟩ := exists_within_synthesized hs
  rw [ofAnalysis_eq, ← kept, Automaton.reached_retainReachable (wellFormed_kept hb c)] at h
  obtain ⟨p', hreach, rfl⟩ := h
  obtain rfl : p' = p := by
    rw [Automaton.getElem?_newId (hreach.mem_order (wellFormed_kept hb c))] at hp
    exact Option.some.inj hp
  -- Before renumbering the state has the number of its key.
  obtain ⟨test, htest⟩ := exists_kept_eq a c
  rw [htest] at hreach
  obtain ⟨k, hk, henter⟩ := (reached_iff hb hl fun hk hk' => keptTransition_iff hb c hk hk').mp
    (hreach.of_filterTransitions
      ((separated_synthesized hb hl.toPartitioned).filterTransitions _))
  rw [get?_synthesized hb hk] at hu
  obtain rfl := Option.some.inj hu
  exact ⟨k, s, henter, hs, hw.events⟩

end Analysis

end PositionAutomata
