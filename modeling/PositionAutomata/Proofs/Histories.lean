import Mathlib
import PositionAutomata.Proofs.Construction.Augmenting
import PositionAutomata.Proofs.Construction.Recognition
import PositionAutomata.Proofs.Construction.States

/-
  Histories of automata.

  An automaton may be changed in five ways (`Automaton.Change`): by a state, by a
  transition to a state that it has, by taking transitions away from a state, by
  pruning, and by dropping the states that are not reached. Each change keeps it
  sound (`Sound.of_change`): it starts in a state that it has, its transitions
  lead to such states, and no state has a transition twice. The trivial automaton
  and those of trees are sound, and so is what any changes make of them.
-/

namespace PositionAutomata.Automaton

/-- One change of an automaton. A new state has no transitions, and a new transition leads to a
state that exists, whatever it leaves. -/
inductive Change : Automaton → Automaton → Prop where
  | addState (a : Automaton) (accept : Option Nat) (events : List CaptureEvent) :
      Change a (a.addState (.isolated accept events)).2
  | addTransition (a : Automaton) (source : StateId) (t : Transition) : t.target < a.size →
      Change a (a.addTransition source t)
  | retainTransitions (a : Automaton) (q : StateId) (keep : Transition → Bool) :
      Change a (a.retainTransitions q keep).2
  | prune (a : Automaton) : Change a a.prune.2
  | retainReachable (a : Automaton) : Change a a.retainReachable

/-- The start and the targets exist, and no state has a transition twice. -/
structure Sound (a : Automaton) : Prop where
  wellFormed : a.WellFormed
  nodup : ∀ s ∈ a.states, s.transitions.Nodup

end PositionAutomata.Automaton

namespace PositionAutomata

/-- Where no value is in two ranges, no transition stands twice. -/
theorem State.Separated.nodup {s : State} (hs : s.Separated) : s.transitions.Nodup := by
  refine List.Pairwise.imp (fun {t u} htu => ?_) hs
  rintro rfl
  -- A range is never empty, so it shares a value with itself.
  have hself : t.range.intersects t.range = true :=
    Range.intersects_iff.mpr ⟨t.range.first, by simp [Range.contains, t.range.first_le_last],
      by simp [Range.contains, t.range.first_le_last]⟩
  rw [htu] at hself
  exact absurd hself (by simp)

theorem State.nodup_addTransition {s : State} (hs : s.transitions.Nodup) (t : Transition) :
    (s.addTransition t).transitions.Nodup := by
  rw [State.addTransition]
  split
  next => exact hs
  next ht => exact List.nodup_append.mpr ⟨hs, List.nodup_singleton t, by grind⟩

theorem State.mem_addTransition {s : State} {t u : Transition}
    (h : u ∈ (s.addTransition t).transitions) : u ∈ s.transitions ∨ u = t := by
  rw [State.addTransition] at h
  split at h
  next => exact .inl h
  next => simpa using h

namespace Automaton

variable {a b : Automaton}

/-! ## One change -/

theorem Sound.addState (h : a.Sound) (accept : Option Nat) (events : List CaptureEvent) :
    (a.addState (.isolated accept events)).2.Sound := by
  have hsize : (a.addState (.isolated accept events)).2.size = a.size + 1 := Array.size_push _
  have hmem : ∀ s ∈ (a.addState (.isolated accept events)).2.states,
      s ∈ a.states ∨ s = .isolated accept events := fun s hs => Array.mem_push.mp hs
  obtain ⟨hstart, htargets⟩ := wellFormed_iff.mp h.wellFormed
  constructor
  · refine wellFormed_iff.mpr ⟨?_, fun s hs t ht => ?_⟩
    · rw [hsize]
      exact Nat.lt_succ_of_lt hstart
    · rcases hmem s hs with hs | rfl
      · rw [hsize]
        exact Nat.lt_succ_of_lt (htargets s hs t ht)
      · exact absurd ht List.not_mem_nil
  · intro s hs
    rcases hmem s hs with hs | rfl
    · exact h.nodup s hs
    · exact List.nodup_nil

/-- A state after a transition is added is as before, or has it in addition. -/
theorem exists_of_mem_addTransition {source : StateId} {t : Transition} {s : State}
    (h : s ∈ (a.addTransition source t).states) :
    ∃ u ∈ a.states, s = u ∨ s = u.addTransition t := by
  obtain ⟨q, hq⟩ := Array.mem_iff_getElem?.mp h
  rw [Automaton.addTransition, Array.getElem?_modify] at hq
  split at hq
  next =>
    obtain ⟨u, hu, rfl⟩ := Option.map_eq_some_iff.mp hq
    exact ⟨u, Array.mem_of_getElem? hu, .inr rfl⟩
  next => exact ⟨s, Array.mem_of_getElem? hq, .inl rfl⟩

theorem Sound.addTransition (h : a.Sound) (source : StateId) {t : Transition}
    (ht : t.target < a.size) : (a.addTransition source t).Sound := by
  have hsize : (a.addTransition source t).size = a.size := Array.size_modify ..
  obtain ⟨hstart, htargets⟩ := wellFormed_iff.mp h.wellFormed
  constructor
  · rw [wellFormed_iff, hsize]
    refine ⟨hstart, fun s hs u hu => ?_⟩
    obtain ⟨v, hv, rfl | rfl⟩ := exists_of_mem_addTransition hs
    · exact htargets _ hv u hu
    · rcases State.mem_addTransition hu with hu | rfl
      · exact htargets v hv u hu
      · exact ht
  · intro s hs
    obtain ⟨v, hv, rfl | rfl⟩ := exists_of_mem_addTransition hs
    · exact h.nodup _ hv
    · exact State.nodup_addTransition (h.nodup v hv) t

theorem Sound.filterTransitions (h : a.Sound) (keep : StateId → Transition → Bool) :
    (a.filterTransitions keep).Sound := by
  refine ⟨h.wellFormed.filterTransitions keep, fun s hs => ?_⟩
  obtain ⟨q, hq⟩ := Array.mem_iff_getElem?.mp hs
  have hq : (a.filterTransitions keep).get? q = some s := hq
  rw [get?_filterTransitions] at hq
  obtain ⟨u, hu, rfl⟩ := Option.map_eq_some_iff.mp hq
  exact (h.nodup u (Array.mem_of_getElem? hu)).filter _

/-- Renumbering gives different targets different numbers, so it makes no two transitions equal. -/
theorem Sound.retainReachable (h : a.Sound) : a.retainReachable.Sound := by
  refine ⟨h.wellFormed.retainReachable, fun s hs => ?_⟩
  obtain ⟨i, hi⟩ := Array.mem_iff_getElem?.mp hs
  obtain ⟨q, hq, _, u, hu, rfl⟩ := exists_of_get?_retainReachable hi
  have hmem : ∀ t ∈ u.transitions, t.target ∈ a.order := fun t ht =>
    successor_mem_order h.wellFormed hq (mem_successors.mpr ⟨u, hu, t, ht, rfl⟩)
  refine (h.nodup u (Array.mem_of_getElem? hu)).map_on fun t ht v hv htv => ?_
  obtain ⟨hrange, htarget⟩ := Transition.mk.inj htv
  have htarget := newId_injective (hmem t ht) (hmem v hv) htarget
  cases t
  cases v
  simp_all

/-- Each change keeps an automaton sound. -/
theorem Sound.of_change (h : a.Sound) (hab : Change a b) : b.Sound := by
  cases hab with
  | addState accept events => exact h.addState accept events
  | addTransition source t ht => exact h.addTransition source ht
  | retainTransitions q keep => exact h.filterTransitions _
  | prune => exact h.filterTransitions _
  | retainReachable => exact h.retainReachable

/-! ## Histories -/

theorem Sound.of_history (h : a.Sound) (hab : Relation.ReflTransGen Change a b) : b.Sound := by
  induction hab with
  | refl => exact h
  | tail _ hchange ih => exact ih.of_change hchange

theorem sound_trivial : trivial.Sound := by
  refine ⟨by decide, fun s hs => ?_⟩
  rw [Array.mem_singleton.mp (show s ∈ #[default] from hs)]
  exact List.nodup_nil

theorem sound_ofTree {t : Tree} {c : Config} {d : Automaton} (h : ofTree t c = .ok d) :
    d.Sound := by
  obtain ⟨a, ha, rfl⟩ := exists_analyze_of_ofTree h
  have hb := Analysis.bounded_of_analyze ha
  refine ⟨Analysis.wellFormed_ofAnalysis hb c, fun s hs => ?_⟩
  obtain ⟨q, hq⟩ := Array.mem_iff_getElem?.mp hs
  exact (Analysis.separated_ofAnalysis hb (Analysis.partitioned_of_analyze ha) c q s hq).nodup

/-- Whatever changes are made to the trivial automaton or to that of a tree, what results has a
state, starts in one of its states and goes only to such, and no state has a transition twice. -/
theorem sound_after_changes {a b : Automaton}
    (ha : a = trivial ∨ ∃ t c, ofTree t c = .ok a) (hab : Relation.ReflTransGen Change a b) :
    0 < b.size ∧ b.start < b.size ∧ (∀ s ∈ b.states, ∀ t ∈ s.transitions, t.target < b.size) ∧
      ∀ s ∈ b.states, s.transitions.Nodup := by
  have hsound : a.Sound := by
    rcases ha with rfl | ⟨t, c, h⟩
    · exact sound_trivial
    · exact sound_ofTree h
  have hb := hsound.of_history hab
  obtain ⟨hstart, htargets⟩ := wellFormed_iff.mp hb.wellFormed
  exact ⟨Nat.lt_of_le_of_lt (Nat.zero_le _) hstart, hstart, htargets, hb.nodup⟩

/-- A letter `a` leads to a new state, twice the same way, and back; what leads back is taken away,
and so is what leads on from a state that does not exist. -/
def changedTrivial : Automaton :=
  let a := (trivial.addState (.isolated (some 3) [⟨1, false, none⟩])).2
  let a := a.addTransition 0 ⟨.single 0x61, 1⟩
  let a := a.addTransition 0 ⟨.single 0x61, 1⟩
  let a := a.addTransition 7 ⟨.single 0x62, 0⟩
  let a := a.addTransition 1 ⟨.single 0x61, 0⟩
  let a := (a.retainTransitions 1 fun t => t.range.contains 0x62).2
  a.prune.2.retainReachable

theorem sound_after_changes_of_trivial :
    (trivial = trivial ∨ ∃ t c, ofTree t c = .ok trivial) ∧
      Relation.ReflTransGen Change trivial changedTrivial ∧
      changedTrivial.states.map (·.transitions.length) = #[1, 0] ∧
      0 < changedTrivial.size ∧ changedTrivial.start < changedTrivial.size ∧
      (∀ s ∈ changedTrivial.states, ∀ t ∈ s.transitions, t.target < changedTrivial.size) ∧
      ∀ s ∈ changedTrivial.states, s.transitions.Nodup := by
  have hab : Relation.ReflTransGen Change trivial changedTrivial := by
    apply Relation.ReflTransGen.tail _ (.retainReachable _)
    apply Relation.ReflTransGen.tail _ (.prune _)
    apply Relation.ReflTransGen.tail _ (.retainTransitions _ _ _)
    apply Relation.ReflTransGen.tail _ (.addTransition _ _ _ (by decide))
    apply Relation.ReflTransGen.tail _ (.addTransition _ _ _ (by decide))
    apply Relation.ReflTransGen.tail _ (.addTransition _ _ _ (by decide))
    apply Relation.ReflTransGen.tail _ (.addTransition _ _ _ (by decide))
    exact .single (.addState _ _ _)
  exact ⟨.inl rfl, hab, by cbv, sound_after_changes (.inl rfl) hab⟩

end Automaton

end PositionAutomata
