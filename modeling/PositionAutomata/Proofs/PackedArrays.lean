import Mathlib
import PositionAutomata.Proofs.Automaton.Labels

/-
  Automata from arrays that nothing is known of.

  Every accepted array but one gives an automaton in which matching only looks
  up states that there are (`decode_looksUp_iff`): the array that holds one
  integer of padding gives an automaton without states. And the labels of the
  automaton keep code points and anchors apart unless a data item of a range
  array goes from a code point to an anchor (`decode_labels_iff`).
-/

namespace PositionAutomata

/-- The numbers of states that matching looks up, whether or not there are such states: that of the
start, and where the transitions of a state lead that was looked up. -/
inductive Automaton.LooksUp (a : Automaton) : StateId → Prop where
  | start : LooksUp a a.start
  | step {q r : StateId} : LooksUp a q → r ∈ a.successors q → LooksUp a r

theorem Automaton.WellFormed.lt_size_of_looksUp {a : Automaton} (wf : a.WellFormed) {q : StateId}
    (h : a.LooksUp q) : q < a.size := by
  cases h with
  | start => exact wf.1
  | step _ hr => exact wf.2 _ _ hr

/-- The automaton of an accepted array has a state, starts in one of its states, only leads to its
states and is matched by looking these up, unless all that the array holds is padding. -/
theorem Packed.decode_looksUp_iff {array : Array Int} {a : Automaton} (h : decode array = .ok a) :
    (0 < a.size ∧ a.WellFormed ∧ ∀ q, a.LooksUp q → q < a.size) ↔ array ≠ #[-1] := by
  rw [show array ≠ #[-1] ↔ array ≠ #[noAccept] from Iff.rfl, ← wellFormed_of_decode_iff h]
  refine ⟨fun hsafe => hsafe.2.1, fun wf => ⟨?_, wf, fun q => wf.lt_size_of_looksUp⟩⟩
  exact Nat.lt_of_le_of_lt (Nat.zero_le _) wf.1

/-- Padding alone is accepted. -/
theorem Packed.decode_padding_looksUp :
    ∃ a, decode #[-1] = .ok a ∧ a.LooksUp a.start ∧ ¬ a.start < a.size := by
  refine ⟨⟨#[], 0⟩, ?_, .start, by decide⟩
  cbv

theorem Packed.decode_word_looksUp :
    ∃ a, decode #[-1, 1, 0, 1, 97] = .ok a ∧ 0 < a.size ∧ a.WellFormed ∧
      ∀ q, a.LooksUp q → q < a.size := by
  have h : decode #[-1, 1, 0, 1, 97] = .ok ⟨#[⟨[⟨.single 97, 0⟩], none, []⟩], 0⟩ := by cbv
  exact ⟨_, h, (decode_looksUp_iff h).mpr (by decide)⟩

/-! ## Labels -/

/-- A uniform label does not both hold somewhere without reading and read somewhere. -/
theorem Range.IsUniform.not_both {r : Range} (h : r.IsUniform) :
    ¬ ((∃ text i, r.Takes text i i) ∧ ∃ text i, r.Takes text i (i + 1)) := by
  rintro ⟨⟨text, i, hhold⟩, text', i', hread⟩
  have hanchor : maxCodepoint < r.last := by
    rcases hhold with ⟨hhold, _⟩ | ⟨_, hi, _⟩
    · simp only [holdsAt, Bool.or_eq_true, Bool.and_eq_true, contains_iff] at hhold
      simp only [maxCodepoint, lineStart, textEnd] at hhold ⊢
      omega
    · omega
  have hchar : r.first ≤ maxCodepoint := by
    rcases hread with ⟨_, hi⟩ | ⟨hread, _⟩
    · omega
    · rw [isAnchor, decide_eq_false_iff_not] at hread
      omega
  rcases h with h | h
  · omega
  · omega

/-- The labels of an accepted array keep code points and anchors apart, so that a transition does
not both read and hold without reading, exactly if no pair at an even offset of a range array goes
from a number that is not negative to one that is. -/
theorem Packed.decode_labels_iff {array : Array Int} {a : Automaton} (h : decode array = .ok a) :
    (∀ q ∈ a.states, ∀ t ∈ q.transitions, t.range.first ≤ t.range.last ∧
        (t.range.last ≤ maxCodepoint ∨ maxCodepoint < t.range.first) ∧
        ¬ ((∃ text i, t.range.Takes text i i) ∧ ∃ text i, t.range.Takes text i (i + 1))) ↔
      ¬ (isRangeArray array = true ∧ ∃ i, i % 2 = 0 ∧ Mixed array i) := by
  rw [← isUniform_states_iff h]
  constructor
  · exact fun hall q hq t ht => (hall q hq t ht).2.1
  · exact fun hall q hq t ht =>
      ⟨t.range.first_le_last, hall q hq t ht, (hall q hq t ht).not_both⟩

/-- The label of this array goes from a letter to the line start. -/
theorem Packed.decode_letterToLineStart :
    ∃ a, decode #[-1, 1, 0, 1, 97, -2] = .ok a ∧
      ∃ q ∈ a.states, ∃ t ∈ q.transitions, t.range.first ≤ maxCodepoint ∧
        maxCodepoint < t.range.last ∧ t.range.Takes ['a'] 0 0 ∧ t.range.Takes ['a'] 0 1 := by
  have h : decode #[-1, 1, 0, 1, 97, -2] =
      .ok ⟨#[⟨[⟨⟨97, lineStart, by decide⟩, 0⟩], none, []⟩], 0⟩ := by cbv
  refine ⟨_, h, _, Array.mem_singleton.mpr rfl, _, List.mem_singleton.mpr rfl, by decide, by decide,
    .inl ⟨rfl, rfl⟩, .inr ⟨rfl, rfl, 'a', rfl, rfl⟩⟩

theorem Packed.decode_letterOrLineStart_labels :
    ∃ a, decode #[-1, 1, 0, 2, 97, 98, -2, -2] = .ok a ∧
      ∀ q ∈ a.states, ∀ t ∈ q.transitions, t.range.first ≤ t.range.last ∧
        (t.range.last ≤ maxCodepoint ∨ maxCodepoint < t.range.first) ∧
        ¬ ((∃ text i, t.range.Takes text i i) ∧ ∃ text i, t.range.Takes text i (i + 1)) := by
  have h : decode #[-1, 1, 0, 2, 97, 98, -2, -2] =
      .ok ⟨#[⟨[⟨⟨97, 98, by decide⟩, 0⟩, ⟨.single lineStart, 0⟩], none, []⟩], 0⟩ := by cbv
  refine ⟨_, h, (decode_labels_iff h).mpr ?_⟩
  rintro ⟨_, i, hpar, first, last, hfirst, hlast, hpos, hneg⟩
  have hi : i < 8 := (Array.getElem?_eq_some_iff.mp hfirst).1
  obtain rfl | rfl | rfl | rfl : i = 0 ∨ i = 2 ∨ i = 4 ∨ i = 6 := by omega
  all_goals
    obtain rfl := Option.some.inj hfirst
    obtain rfl := Option.some.inj hlast
    revert hpos hneg
    decide

end PositionAutomata
