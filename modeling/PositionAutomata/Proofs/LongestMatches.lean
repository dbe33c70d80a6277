import Mathlib
import PositionAutomata.Proofs.Automaton.Runs

/-
  Longest matches as runs.

  A run asks for the symbols reported at the end of a text, a longest match for
  the last place of a text at which some are reported
  (`longestMatch_eq_some_iff`). A label with the text end can be taken at one of
  these places and not at the other. Without such labels what is reached depends
  on the characters read alone (`Reached.of_take_eq`), and then the longest match
  is the longest beginning of the text that a run accepts.
-/

namespace PositionAutomata

namespace Automaton

variable {a : Automaton} {text other p : List Char} {i k n : Nat}

/-! ## Lengths in bytes -/

theorem byteLength_cons (c : Char) (xs : List Char) :
    byteLength (c :: xs) = c.utf8Size + byteLength xs :=
  rfl

theorem byteLength_append (xs ys : List Char) :
    byteLength (xs ++ ys) = byteLength xs + byteLength ys := by
  induction xs with
  | nil => exact (Nat.zero_add _).symm
  | cons c xs ih =>
    rw [List.cons_append, byteLength_cons, byteLength_cons, ih, Nat.add_assoc]

theorem eq_nil_of_byteLength_eq_zero {xs : List Char} (h : byteLength xs = 0) : xs = [] := by
  cases xs with
  | nil => rfl
  | cons c xs =>
    have hpos := c.utf8Size_pos
    rw [byteLength_cons] at h
    omega

theorem utf8ByteSize_ofList (xs : List Char) : (String.ofList xs).utf8ByteSize = byteLength xs := by
  induction xs with
  | nil => rfl
  | cons c xs ih =>
    rw [← List.singleton_append, String.ofList_append, String.utf8ByteSize_append,
      ← String.singleton_eq_ofList, String.utf8ByteSize_singleton, ih, List.singleton_append,
      byteLength_cons]

/-- A beginning of a text that has all its bytes is all of it. -/
theorem eq_of_byteLength_eq (hp : p <+: text) (h : byteLength p = byteLength text) : p = text := by
  obtain ⟨rest, rfl⟩ := hp
  have hrest : byteLength rest = 0 := by
    rw [byteLength_append] at h
    omega
  rw [eq_nil_of_byteLength_eq_zero hrest, List.append_nil]

/-- After a beginning of a text a character of it ends. -/
theorem isValid_byteLength (h : p <+: text) :
    String.Pos.Raw.IsValid (String.ofList text) ⟨byteLength p⟩ := by
  obtain ⟨rest, rfl⟩ := h
  refine String.Pos.Raw.isValid_iff_exists_append.mpr
    ⟨String.ofList p, String.ofList rest, String.ofList_append, ?_⟩
  rw [String.rawEndPos, utf8ByteSize_ofList]

/-! ## Where the longest match ends -/

theorem longestMatch_eq_some_iff :
    a.longestMatch text = some (k, n) ↔
      ∃ p, p <+: text ∧ byteLength p = n ∧ IsLeast {j | a.Reports text p.length j} k ∧
        ∀ i j, a.Reports text i j → i ≤ p.length := by
  rw [longestMatch, Option.map_eq_some_iff]
  constructor
  · intro h
    obtain ⟨⟨_, m⟩, hm, heq⟩ := h
    cases heq
    obtain ⟨hleast, hlast⟩ := longestPrefix_eq_some_iff.mp hm
    have hlength : (text.take m).length = m := List.length_take_of_le hleast.1.le_length
    refine ⟨text.take m, List.take_prefix m text, rfl, ?_⟩
    rw [hlength]
    exact ⟨hleast, hlast⟩
  · intro h
    obtain ⟨p, hp, rfl, hleast, hlast⟩ := h
    refine ⟨(k, p.length), longestPrefix_eq_some_iff.mpr ⟨hleast, hlast⟩, ?_⟩
    show (k, byteLength (text.take p.length)) = _
    rw [← List.prefix_iff_eq_take.mp hp]

theorem longestMatch_eq_none_iff :
    a.longestMatch text = none ↔ ∀ i j, ¬ a.Reports text i j := by
  constructor
  · intro h i j hj
    -- The last place at which a symbol is reported, and the least symbol there.
    have hbound : BddAbove {m | ∃ l, a.Reports text m l} := by
      refine ⟨text.length, fun m hm => ?_⟩
      obtain ⟨l, hl⟩ := hm
      exact hl.le_length
    obtain ⟨m, hm, hlast⟩ := hbound.exists_isGreatest_of_nonempty ⟨i, j, hj⟩
    obtain ⟨k, hk⟩ := exists_isLeast hm
    have hprefix : a.longestPrefix text = some (k, m) :=
      longestPrefix_eq_some_iff.mpr ⟨hk, fun i j hj => hlast ⟨j, hj⟩⟩
    rw [longestMatch, hprefix] at h
    exact absurd h (by simp)
  · intro h
    rw [Option.eq_none_iff_forall_ne_some]
    intro answer hanswer
    obtain ⟨k, n⟩ := answer
    obtain ⟨p, _, _, hleast, _⟩ := longestMatch_eq_some_iff.mp hanswer
    exact h _ _ hleast.1

/-- A longest match of the whole text is a run. -/
theorem longestMatch_eq_length_iff :
    a.longestMatch text = some (k, byteLength text) ↔ a.run text = some k := by
  rw [longestMatch_eq_some_iff, run_eq_some_iff]
  constructor
  · intro h
    obtain ⟨p, hp, hn, hleast, _⟩ := h
    obtain rfl := eq_of_byteLength_eq hp hn
    exact hleast
  · intro h
    exact ⟨text, List.prefix_refl text, rfl, h, fun i j hj => hj.le_length⟩

/-! ## Labels without the text end -/

/-- No label can be taken because the text ends. -/
def IsEndFree (a : Automaton) : Prop :=
  ∀ s ∈ a.states, ∀ t ∈ s.transitions, t.range.contains textEnd = false

instance : DecidablePred IsEndFree := fun a =>
  inferInstanceAs
    (Decidable (∀ s ∈ a.states, ∀ t ∈ s.transitions, t.range.contains textEnd = false))

theorem getElem?_of_take_eq (h : text.take n = other.take n) (hi : i < n) :
    text[i]? = other[i]? := by
  rw [← List.getElem?_take_of_lt hi, h, List.getElem?_take_of_lt hi]

/-- Without labels for the text end, what is reached depends on the characters before. -/
theorem Reached.of_take_eq (hend : a.IsEndFree) (htake : text.take n = other.take n)
    {q : StateId} (h : a.Reached text i q) (hi : i ≤ n) : a.Reached other i q := by
  induction h with
  | start hs => exact .start hs
  | @anchor i q s t _ hs ht hh hlt ih =>
    refine .anchor (ih hi) hs ht ?_ hlt
    have hfree : t.range.contains textEnd = false := hend s (Array.mem_of_getElem? hs) t ht
    simp only [Range.holdsAt, hfree, Bool.false_and, Bool.or_false, Bool.and_eq_true,
      Bool.or_eq_true, decide_eq_true_eq, List.getElem?_toArray] at hh ⊢
    obtain ⟨hstart, hzero | hfeed⟩ := hh
    · exact ⟨hstart, .inl hzero⟩
    · rcases Nat.eq_zero_or_pos i with hzero | hpos
      · exact ⟨hstart, .inl hzero⟩
      · refine ⟨hstart, .inr ?_⟩
        rw [← getElem?_of_take_eq htake (show i - 1 < n by omega)]
        exact hfeed
  | read _ hs hc hn hlt ih =>
    rw [getElem?_of_take_eq htake hi] at hc
    exact .read (ih (Nat.le_of_succ_le hi)) hs hc hn hlt

/-- What is reported after a beginning of a text is what is reported where it is the whole text. -/
theorem reports_prefix_iff (hend : a.IsEndFree) (hp : p <+: text) :
    a.Reports text p.length k ↔ a.Reports p p.length k := by
  have htake : text.take p.length = p.take p.length := by
    rw [List.take_length, ← List.prefix_iff_eq_take.mp hp]
  constructor
  · intro h
    obtain ⟨q, hq, hk⟩ := h
    exact ⟨q, hq.of_take_eq hend htake (Nat.le_refl _), hk⟩
  · intro h
    obtain ⟨q, hq, hk⟩ := h
    exact ⟨q, hq.of_take_eq hend htake.symm (Nat.le_refl _), hk⟩

theorem run_prefix_eq_some_iff (hend : a.IsEndFree) (hp : p <+: text) :
    a.run p = some k ↔ IsLeast {j | a.Reports text p.length j} k := by
  rw [run_eq_some_iff]
  simp only [reports_prefix_iff hend hp]

/-- A beginning of a text is accepted exactly if some symbol is reported after it. -/
theorem accepts_prefix_iff (hend : a.IsEndFree) (hp : p <+: text) :
    a.accepts p = true ↔ ∃ j, a.Reports text p.length j := by
  rw [accepts, Option.isSome_iff_exists]
  simp only [run_prefix_eq_some_iff hend hp]
  constructor
  · intro h
    obtain ⟨k, hk⟩ := h
    exact ⟨k, hk.1⟩
  · intro h
    exact exists_isLeast h

/-- Something about every place at which a symbol is reported, as something about every accepted
beginning of the text. -/
theorem forall_reports_iff (hend : a.IsEndFree) {P : Nat → Prop} :
    (∀ i j, a.Reports text i j → P i) ↔ ∀ p, p <+: text → a.accepts p = true → P p.length := by
  constructor
  · intro h p hp hacc
    obtain ⟨j, hj⟩ := (accepts_prefix_iff hend hp).mp hacc
    exact h p.length j hj
  · intro h i j hj
    have hlength : (text.take i).length = i := List.length_take_of_le hj.le_length
    have hprefix := List.take_prefix i text
    rw [← hlength] at hj ⊢
    exact h _ hprefix ((accepts_prefix_iff hend hprefix).mpr ⟨j, hj⟩)

/-- A text is accepted exactly if its longest match is all of it, with the same symbol. A longest
match ends where a character ends. If no label holds the text end, the longest match is the longest
accepted beginning of the text, with the symbol of the run over it. -/
theorem longestMatch_agrees_with_run (a : Automaton) (text : List Char) :
    (∀ k, a.run text = some k ↔
        a.longestMatch text = some (k, (String.ofList text).utf8ByteSize)) ∧
      (∀ k n, a.longestMatch text = some (k, n) →
        String.Pos.Raw.IsValid (String.ofList text) ⟨n⟩) ∧
      (a.IsEndFree →
        (∀ k n, a.longestMatch text = some (k, n) ↔
          ∃ p, p <+: text ∧ (String.ofList p).utf8ByteSize = n ∧ a.run p = some k ∧
            ∀ q, q <+: text → a.accepts q = true → q.length ≤ p.length) ∧
        (a.longestMatch text = none ↔ ∀ p, p <+: text → a.accepts p = false)) := by
  simp only [utf8ByteSize_ofList]
  refine ⟨fun k => longestMatch_eq_length_iff.symm, fun k n h => ?_, fun hend => ⟨fun k n => ?_, ?_⟩⟩
  · obtain ⟨p, hp, rfl, _⟩ := longestMatch_eq_some_iff.mp h
    exact isValid_byteLength hp
  · rw [longestMatch_eq_some_iff]
    refine exists_congr fun p => and_congr_right fun hp => and_congr_right fun _ => ?_
    rw [run_prefix_eq_some_iff hend hp, forall_reports_iff hend]
  · have hnone : (∀ i j, a.Reports text i j → False) ↔
        ∀ p, p <+: text → a.accepts p = true → False := forall_reports_iff hend
    rw [longestMatch_eq_none_iff]
    simpa only [imp_false, Bool.not_eq_true] using hnone

/-- Lines of the letter `é`, each begun anew at the line start. -/
def accentedLines : Automaton where
  states := #[
    ⟨[⟨.single lineStart, 1⟩], none, []⟩,
    ⟨[⟨.single 0xe9, 1⟩, ⟨.single 0x0a, 0⟩], some 4, []⟩]
  start := 0

/-- After a letter of two bytes and a line feed the third character is read by no label. -/
theorem longestMatch_accentedLines :
    accentedLines.IsEndFree ∧
      accentedLines.longestMatch ['é', '\n', 'x'] = some (4, 3) ∧
      ∃ p, p <+: ['é', '\n', 'x'] ∧ (String.ofList p).utf8ByteSize = 3 ∧
        accentedLines.run p = some 4 ∧
        ∀ q, q <+: ['é', '\n', 'x'] → accentedLines.accepts q = true → q.length ≤ p.length := by
  have hend : accentedLines.IsEndFree := by decide
  have hmatch : accentedLines.longestMatch ['é', '\n', 'x'] = some (4, 3) := by cbv
  obtain ⟨_, _, hlongest⟩ := longestMatch_agrees_with_run accentedLines ['é', '\n', 'x']
  exact ⟨hend, hmatch, ((hlongest hend).1 4 3).mp hmatch⟩

end Automaton

end PositionAutomata
