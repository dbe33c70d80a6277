import Mathlib.Tactic.Tauto
import PositionAutomata.Automaton.Packed
import PositionAutomata.Proofs.Automaton.Changes
import PositionAutomata.Proofs.Charset.Normal
import PositionAutomata.Proofs.Index

/-
  What an array that is accepted says.

  Each function of the decoder succeeds exactly where its input says what it
  answers (`readCount_eq_ok`, `readValue_eq_ok`, `starts_eq_ok`,
  `decode_eq_ok`). A target is the rank of an offset at which a record starts,
  so it is a state. The start is one too unless there is no record at all,
  which of all arrays only the one that holds nothing but padding allows
  (`wellFormed_of_decode_iff`).
-/

namespace PositionAutomata

/-- A step for each element of a list succeeds if it succeeds for each. -/
theorem mapM_eq_ok {α β : Type} {f : α → Except Failure β} {xs : List α} {ys : List β} :
    xs.mapM f = .ok ys ↔ xs.map f = ys.map .ok := by
  induction xs generalizing ys with
  | nil =>
    rw [List.mapM_nil, List.map_nil, List.nil_eq, List.map_eq_nil_iff]
    exact ⟨fun h => (Except.ok.inj h).symm, fun h => congrArg Except.ok h.symm⟩
  | cons x xs ih =>
    rw [List.mapM_cons, List.map_cons, eq_comm (a := f x :: xs.map f), List.map_eq_cons_iff]
    simp only [bind_eq_ok, ih]
    constructor
    · rintro ⟨y, hy, rest, hrest, h⟩
      exact ⟨y, rest, (Except.ok.inj h).symm, hy.symm, hrest.symm⟩
    · rintro ⟨y, rest, rfl, hy, hrest⟩
      exact ⟨y, hy.symm, rest, hrest.symm, rfl⟩

namespace Packed

variable {array : Array Int} {e : Encoding} {o : Nat}

/-! ## Integers -/

theorem read_eq_ok {n : Int} : read array o = .ok n ↔ array[o]? = some n := by
  rw [read]
  cases array[o]? <;> simp

theorem readCount_eq_ok {n : Nat} : readCount array o = .ok n ↔ array[o]? = some (n : Int) := by
  rw [readCount, bind_eq_ok]
  constructor
  · rintro ⟨m, hm, h⟩
    split at h
    · exact absurd h throw_ne_ok
    · obtain rfl : m.toNat = n := Except.ok.inj h
      rw [read_eq_ok.mp hm, Int.toNat_of_nonneg (by omega)]
  · intro h
    refine ⟨n, read_eq_ok.mpr h, ?_⟩
    rw [if_neg (by omega)]
    rfl

theorem readValue_eq_ok {c : Nat} : readValue array o = .ok c ↔
    (c = lineStart ∧ array[o]? = some lineStartCode) ∨ (c = textEnd ∧ array[o]? = some textEndCode) ∨
      (c ≤ maxCodepoint ∧ array[o]? = some (c : Int)) := by
  rw [readValue, bind_eq_ok]
  constructor
  · rintro ⟨n, hn, h⟩
    rw [read_eq_ok] at hn
    split at h
    next heq =>
      subst heq
      exact .inl ⟨(Except.ok.inj h).symm, hn⟩
    next =>
      split at h
      next heq =>
        subst heq
        exact .inr (.inl ⟨(Except.ok.inj h).symm, hn⟩)
      next =>
        split at h
        next hle =>
          obtain rfl : n.toNat = c := Except.ok.inj h
          exact .inr (.inr ⟨by omega, by rw [hn, Int.toNat_of_nonneg hle.1]⟩)
        next => exact absurd h throw_ne_ok
  · rintro (⟨rfl, h⟩ | ⟨rfl, h⟩ | ⟨hc, h⟩)
    · exact ⟨_, read_eq_ok.mpr h, rfl⟩
    · exact ⟨_, read_eq_ok.mpr h, rfl⟩
    · refine ⟨c, read_eq_ok.mpr h, ?_⟩
      rw [if_neg (by simp only [lineStartCode]; omega), if_neg (by simp only [textEndCode]; omega),
        if_pos ⟨by omega, by omega⟩]
      rfl

/-! ## Ranges -/

theorem readRange_pair_eq_ok {r : Range} : readRange array o .ranges = .ok r ↔
    readValue array o = .ok r.first ∧ readValue array (o + 1) = .ok r.last := by
  simp only [readRange, bind_eq_ok]
  constructor
  · rintro ⟨first, hfirst, last, hlast, h⟩
    split at h
    next hle =>
      obtain rfl : (⟨first, last, hle⟩ : Range) = r := Except.ok.inj h
      exact ⟨hfirst, hlast⟩
    next => exact absurd h throw_ne_ok
  · intro h
    exact ⟨r.first, h.1, r.last, h.2, dif_pos r.first_le_last⟩

theorem readRange_value_eq_ok {r : Range} :
    readRange array o .codepoints = .ok r ↔ ∃ c, readValue array o = .ok c ∧ r = .single c := by
  simp only [readRange, bind_eq_ok]
  refine exists_congr fun c => and_congr_right fun _ => ?_
  exact ⟨fun h => (Except.ok.inj h).symm, fun h => congrArg Except.ok h.symm⟩

theorem readRanges_succ_eq_ok {e : Encoding} {n : Nat} {rs : List Range} :
    readRanges array e (n + 1) o = .ok rs ↔ ∃ r rest, readRange array o e = .ok r ∧
      readRanges array e n (o + e.itemSize) = .ok rest ∧ rs = r :: rest := by
  simp only [readRanges, bind_eq_ok]
  constructor
  · rintro ⟨r, hr, rest, hrest, h⟩
    exact ⟨r, rest, hr, hrest, (Except.ok.inj h).symm⟩
  · rintro ⟨r, rest, hr, hrest, rfl⟩
    exact ⟨r, hr, rest, hrest, rfl⟩

/-! ## Offsets of records -/

theorem skipGroups_succ_eq_ok {n : Nat} {next : Nat} :
    (∃ h, skipGroups array e (n + 1) o = .ok ⟨next, h⟩) ↔
      ∃ count, readCount array (o + 1) = .ok count ∧
        ∃ h, skipGroups array e n (o + 2 + e.itemSize * count) = .ok ⟨next, h⟩ := by
  simp only [skipGroups, bind_eq_ok]
  constructor
  · rintro ⟨_, count, hcount, ⟨m, hm⟩, hskip, heq⟩
    obtain rfl : m = next := congrArg Subtype.val (Except.ok.inj heq)
    exact ⟨count, hcount, hm, hskip⟩
  · rintro ⟨count, hcount, hle, hskip⟩
    exact ⟨by omega, count, hcount, _, hskip, rfl⟩

theorem skipRecord_eq_ok {next : Nat} :
    (∃ h, skipRecord array e o = .ok ⟨next, h⟩) ↔ ∃ groups, readCount array (o + 1) = .ok groups ∧
      ∃ h, skipGroups array e groups (o + 2) = .ok ⟨next, h⟩ := by
  simp only [skipRecord, bind_eq_ok]
  constructor
  · rintro ⟨_, groups, hgroups, ⟨m, hm⟩, hskip, heq⟩
    obtain rfl : m = next := congrArg Subtype.val (Except.ok.inj heq)
    exact ⟨groups, hgroups, hm, hskip⟩
  · rintro ⟨groups, hgroups, hle, hskip⟩
    exact ⟨by omega, groups, hgroups, _, hskip, rfl⟩

theorem starts_eq_ok {stop last : Nat} {places : List Nat} :
    starts array e stop o = .ok (places, last) ↔
      (stop ≤ o ∧ places = [] ∧ last = o) ∨
        (o < stop ∧ ∃ next rest, skipRecord array e o = .ok next ∧
          starts array e stop next = .ok (rest, last) ∧ places = o :: rest) := by
  rw [starts]
  by_cases h : o < stop
  · rw [dif_pos h, bind_eq_ok]
    constructor
    · rintro ⟨⟨next, hnext⟩, hskip, h'⟩
      obtain ⟨⟨rest, last'⟩, hrest, heq⟩ := bind_eq_ok.mp h'
      obtain ⟨rfl, rfl⟩ : o :: rest = places ∧ last' = last := by
        simpa using Except.ok.inj heq
      exact .inr ⟨h, ⟨next, hnext⟩, rest, hskip, hrest, rfl⟩
    · rintro (⟨hle, _⟩ | ⟨_, next, rest, hskip, hrest, rfl⟩)
      · omega
      · exact ⟨next, hskip, bind_eq_ok.mpr ⟨(rest, last), hrest, rfl⟩⟩
  · rw [dif_neg h]
    constructor
    · intro heq
      obtain ⟨rfl, rfl⟩ : [] = places ∧ o = last := by
        simpa using Except.ok.inj heq
      exact .inl ⟨by omega, rfl, rfl⟩
    · rintro (⟨_, rfl, rfl⟩ | ⟨hlt, _⟩)
      · rfl
      · exact absurd hlt h

theorem starts_eq_nil_iff {stop last : Nat} {places : List Nat}
    (h : starts array e stop o = .ok (places, last)) : places = [] ↔ stop ≤ o := by
  rcases starts_eq_ok.mp h with ⟨hle, rfl, _⟩ | ⟨hlt, _, _, _, _, rfl⟩
  · simp [hle]
  · simp [hlt]

/-- The records end at the offset to stop at or after it, and not before they start. -/
theorem le_of_starts {stop last : Nat} {places : List Nat}
    (h : starts array e stop o = .ok (places, last)) : o ≤ last ∧ stop ≤ last := by
  induction places generalizing o with
  | nil =>
    rcases starts_eq_ok.mp h with ⟨hle, _, rfl⟩ | ⟨_, _, _, _, _, hcons⟩
    · exact ⟨Nat.le_refl _, hle⟩
    · exact absurd hcons (by simp)
  | cons p places ih =>
    rcases starts_eq_ok.mp h with ⟨_, hnil, _⟩ | ⟨_, ⟨next, hnext⟩, rest, _, hrest, hcons⟩
    · exact absurd hnil (by simp)
    · obtain ⟨rfl, rfl⟩ := List.cons.inj hcons
      obtain ⟨hle, hstop⟩ := ih hrest
      exact ⟨Nat.le_trans (Nat.le_of_lt hnext) hle, hstop⟩

/-! ## Arrays -/

/-- The encoding that the length of an array says it is in. -/
def encodingOf (array : Array Int) : Encoding :=
  if isRangeArray array then .ranges else .codepoints

/-- An array with integers in it is accepted if its records end where they have to and each of
them is the record of a state. -/
theorem decode_eq_ok {a : Automaton} (hne : array ≠ #[]) :
    decode array = .ok a ↔ ∃ stop places last states,
      stopOf array (encodingOf array) = .ok stop ∧
        starts array (encodingOf array) stop 0 = .ok (places, last) ∧ last ≤ stop ∧
          places.mapM (readState array (encodingOf array) (Index.ofList places).get?) = .ok states ∧
            a = ⟨states.toArray, 0⟩ := by
  have hnonempty : array.isEmpty = false := by
    rw [Bool.eq_false_iff]
    exact fun h => hne (Array.isEmpty_iff.mp h)
  rw [decode, hnonempty, if_neg Bool.false_ne_true, ← encodingOf]
  simp only [bind_eq_ok, Prod.exists]
  constructor
  · rintro ⟨stop, hstop, places, last, hstarts, h⟩
    split at h
    next => exact absurd (bind_eq_ok.mp h) (by simp [throw_ne_ok])
    next hle =>
      obtain ⟨states, hstates, heq⟩ := bind_eq_ok.mp h
      exact ⟨stop, places, last, states, hstop, hstarts, Nat.le_of_not_lt hle, hstates,
        (Except.ok.inj heq).symm⟩
  · rintro ⟨stop, places, last, states, hstop, hstarts, hle, hstates, rfl⟩
    refine ⟨stop, hstop, places, last, hstarts, ?_⟩
    rw [if_neg (Nat.not_lt.mpr hle)]
    exact bind_eq_ok.mpr ⟨states, hstates, rfl⟩

/-! ## Transitions -/

theorem mem_addTransition {q : State} {t u : Transition} :
    u ∈ (q.addTransition t).transitions ↔ u ∈ q.transitions ∨ u = t := by
  rw [State.addTransition]
  split
  next h =>
    refine ⟨.inl, ?_⟩
    rintro (hu | rfl)
    · exact hu
    · exact h
  next => simp

theorem mem_foldl_addTransition {target : StateId} {rs : List Range} {q : State} {u : Transition} :
    u ∈ (rs.foldl (fun q r => q.addTransition ⟨r, target⟩) q).transitions ↔
      u ∈ q.transitions ∨ u.target = target ∧ u.range ∈ rs := by
  induction rs generalizing q with
  | nil => simp
  | cons r rs ih =>
    rw [List.foldl_cons, ih, mem_addTransition, List.mem_cons, or_assoc]
    obtain ⟨range, utarget⟩ := u
    simp only [Transition.mk.injEq]
    tauto

/-- A group is read by adding the normal form of its ranges as transitions to its target. -/
theorem readGroups_succ_eq_ok {rank? : Nat → Option StateId} {n : Nat} {q q' : State} :
    readGroups array e rank? (n + 1) o q = .ok q' ↔ ∃ place target count rs,
      readCount array o = .ok place ∧ rank? place = some target ∧
        readCount array (o + 1) = .ok count ∧ readRanges array e count (o + 2) = .ok rs ∧
          readGroups array e rank? n (o + 2 + e.itemSize * count)
            ((Range.normalize rs).foldl (fun q r => q.addTransition ⟨r, target⟩) q) = .ok q' := by
  rw [readGroups, bind_eq_ok]
  constructor
  · rintro ⟨place, hplace, h⟩
    split at h
    next => exact absurd h throw_ne_ok
    next target hrank =>
      obtain ⟨count, hcount, h⟩ := bind_eq_ok.mp h
      obtain ⟨rs, hrs, h⟩ := bind_eq_ok.mp h
      exact ⟨place, target, count, rs, hplace, hrank, hcount, hrs, h⟩
  · rintro ⟨place, target, count, rs, hplace, hrank, hcount, hrs, h⟩
    refine ⟨place, hplace, ?_⟩
    rw [hrank]
    exact bind_eq_ok.mpr ⟨count, hcount, bind_eq_ok.mpr ⟨rs, hrs, h⟩⟩

/-- What holds of the transitions of every group that can be read holds of the transitions that
are read. -/
theorem readGroups_induction {P : Transition → Prop} {rank? : Nat → Option StateId}
    (group : ∀ o place target count rs, rank? place = some target →
      readRanges array e count o = .ok rs → ∀ r ∈ Range.normalize rs, P ⟨r, target⟩)
    {n : Nat} {q q' : State} (h : readGroups array e rank? n o q = .ok q')
    (hq : ∀ t ∈ q.transitions, P t) : ∀ t ∈ q'.transitions, P t := by
  induction n generalizing o q with
  | zero =>
    obtain rfl : q = q' := Except.ok.inj h
    exact hq
  | succ n ih =>
    obtain ⟨place, target, count, rs, _, hrank, _, hrs, h⟩ := readGroups_succ_eq_ok.mp h
    refine ih h fun t ht => ?_
    rcases mem_foldl_addTransition.mp ht with hold | ⟨rfl, hnew⟩
    · exact hq t hold
    · exact group _ place t.target count rs hrank hrs t.range hnew

theorem readState_eq_ok {rank? : Nat → Option StateId} {q : State} :
    readState array e rank? o = .ok q ↔ ∃ accept groups, array[o]? = some accept ∧
      readCount array (o + 1) = .ok groups ∧ readGroups array e rank? groups (o + 2)
        (.isolated (if accept < 0 then none else some accept.toNat) []) = .ok q := by
  simp only [readState, bind_eq_ok, read_eq_ok]
  tauto

/-! ## States -/

theorem lt_of_rank {places : List Nat} {place target : Nat}
    (h : (Index.ofList places).get? place = some target) : target < places.length :=
  (List.getElem?_eq_some_iff.mp (Index.getElem?_of_get? h)).1

/-- The states that are read lead to states that are read. -/
theorem target_lt_of_readState {places : List Nat} {q : State}
    (h : readState array e (Index.ofList places).get? o = .ok q) :
    ∀ t ∈ q.transitions, t.target < places.length := by
  obtain ⟨_, _, _, _, hgroups⟩ := readState_eq_ok.mp h
  refine readGroups_induction (fun _ _ _ _ _ hrank _ _ _ => lt_of_rank hrank) hgroups ?_
  exact fun t ht => absurd ht (by simp [State.isolated])

/-- A state that is read is read at one of the offsets. -/
theorem exists_place_of_mapM {places : List Nat} {states : List State}
    {rank? : Nat → Option StateId}
    (h : places.mapM (readState array e rank?) = .ok states) {q : State} (hq : q ∈ states) :
    ∃ p ∈ places, readState array e rank? p = .ok q := by
  rw [mapM_eq_ok] at h
  have hmem : Except.ok q ∈ places.map (readState array e rank?) := by
    rw [h]
    exact List.mem_map.mpr ⟨q, hq, rfl⟩
  obtain ⟨p, hp, heq⟩ := List.mem_map.mp hmem
  exact ⟨p, hp, heq⟩

theorem length_of_mapM {places : List Nat} {states : List State} {rank? : Nat → Option StateId}
    (h : places.mapM (readState array e rank?) = .ok states) : states.length = places.length := by
  have hlength := congrArg List.length (mapM_eq_ok.mp h)
  rw [List.length_map, List.length_map] at hlength
  exact hlength.symm

/-- The records of an array with integers in it have to end before its first one only if that is
all the array holds, as padding. -/
theorem stopOf_eq_zero_iff (hne : array ≠ #[]) {stop : Nat}
    (h : stopOf array (encodingOf array) = .ok stop) : stop = 0 ↔ array = #[noAccept] := by
  have hpos : 0 < array.size := Array.size_pos_iff.mpr hne
  constructor
  · rintro rfl
    -- Only padding can make the records end before the array does.
    cases he : encodingOf array with
    | ranges =>
      rw [he] at h
      exact absurd (Except.ok.inj h) (Nat.ne_of_gt hpos)
    | codepoints =>
      rw [he, stopOf] at h
      split at h
      next hback =>
        obtain ⟨⟨places, last⟩, _, h⟩ := bind_eq_ok.mp h
        have hstop : (if last = array.size - 1 then last else array.size) = 0 := Except.ok.inj h
        have hsize : array.size = 1 := by
          split at hstop <;> omega
        obtain ⟨x, rfl⟩ := Array.size_eq_one_iff.mp hsize
        obtain rfl : x = noAccept := by simpa using hback
        rfl
      next => exact absurd (Except.ok.inj h) (Nat.ne_of_gt hpos)
  · rintro rfl
    have hback : #[noAccept].back? = some noAccept := rfl
    have hstarts : starts #[noAccept] .codepoints (#[noAccept].size - 1) 0 = .ok ([], 0) :=
      starts_eq_ok.mpr (.inl ⟨Nat.le_refl _, rfl, rfl⟩)
    have hpadding : stopOf #[noAccept] .codepoints = .ok 0 := by
      rw [stopOf, if_pos hback, hstarts]
      rfl
    exact Except.ok.inj (h.symm.trans hpadding)

/-! ## Well-formed results -/

/-- Records are read as an automaton that only leads to its states. -/
theorem wellFormed_of_mapM {places : List Nat} {states : List State} (hne : places ≠ [])
    (h : places.mapM (readState array e (Index.ofList places).get?) = .ok states) :
    Automaton.WellFormed ⟨states.toArray, 0⟩ := by
  have hsize : (Automaton.mk states.toArray 0).size = places.length := by
    rw [Automaton.size, List.size_toArray, length_of_mapM h]
  rw [Automaton.wellFormed_iff, hsize]
  refine ⟨List.length_pos_iff.mpr hne, fun s hs => ?_⟩
  obtain ⟨p, _, hp⟩ := exists_place_of_mapM h (show s ∈ states by simpa using hs)
  exact target_lt_of_readState hp

/-- Of all accepted arrays only the one that holds nothing but padding does not give an automaton
that starts in one of its states and only leads to its states. -/
theorem wellFormed_of_decode_iff {a : Automaton} (h : decode array = .ok a) :
    a.WellFormed ↔ array ≠ #[noAccept] := by
  by_cases hne : array = #[]
  · subst hne
    obtain rfl : Automaton.trivial = a := Except.ok.inj h
    exact ⟨fun _ => by decide, fun _ => by decide⟩
  · obtain ⟨stop, places, last, states, hstop, hstarts, _, hstates, rfl⟩ := (decode_eq_ok hne).mp h
    have hempty : array = #[noAccept] ↔ places = [] := by
      rw [← stopOf_eq_zero_iff hne hstop, starts_eq_nil_iff hstarts, Nat.le_zero]
    rw [ne_eq, hempty]
    constructor
    · rintro ⟨hstart, _⟩ rfl
      obtain rfl : states = [] := List.length_eq_zero_iff.mp (length_of_mapM hstates)
      exact absurd hstart (by decide)
    · exact fun hplaces => wellFormed_of_mapM hplaces hstates

end Packed

end PositionAutomata
