import PositionAutomata.Proofs.Automaton.Decoding

/-
  The labels that an array gives.

  A label should hold code points or anchors, not both (`Range.IsUniform`). A
  codepoint array only gives single values. In a range array all data stand in
  pairs at even offsets; the second number of a pair that is no data item is a
  count, so the label of an item joins code points and anchors exactly if its
  pair goes from a number that is not negative to one that is (`Mixed`). The
  pairs of an interval are those that lie a multiple of two after its start
  (`Unmixed`), and an interval can be cut where a pair ends. The lemmas follow
  the decoder over groups, records and arrays, and say at each level that the
  labels are uniform if no pair is mixed and only then.
-/

namespace PositionAutomata

namespace Range

/-- All values are code points, or all lie above them. -/
def IsUniform (r : Range) : Prop := r.last ≤ maxCodepoint ∨ maxCodepoint < r.first

instance : DecidablePred IsUniform := fun r =>
  inferInstanceAs (Decidable (r.last ≤ maxCodepoint ∨ maxCodepoint < r.first))

theorem isUniform_single (c : Nat) : (single c).IsUniform := Nat.lt_or_ge maxCodepoint c |>.symm

theorem IsUniform.hull {r s : Range} (hr : r.IsUniform) (hs : s.IsUniform)
    (ht : r.touches s = true) : (r.hull s).IsUniform := by
  rw [touches] at ht
  split at ht
  next =>
    obtain rfl : r = s := by simpa using ht
    simpa only [IsUniform, Range.hull, Nat.min_self, Nat.max_self] using hr
  next ha =>
    simp only [isAnchor, Bool.or_eq_true, decide_eq_true_eq, not_or, Nat.not_lt] at ha
    simp only [IsUniform, Range.hull] at hr hs ⊢
    omega

/-- Joining puts each range into one that it lies within. -/
theorem exists_within_coalesceFrom {current : Range} {rs : List Range} :
    ∀ r ∈ current :: rs, ∃ s ∈ coalesceFrom current rs, s.first ≤ r.first ∧ r.last ≤ s.last := by
  induction rs generalizing current with
  | nil => exact fun r hr => ⟨r, hr, Nat.le_refl _, Nat.le_refl _⟩
  | cons next rest ih =>
    intro r hr
    rw [coalesceFrom]
    split
    next =>
      obtain ⟨s, hs, hle⟩ := ih (current.hull next) List.mem_cons_self
      simp only [hull] at hle
      rcases List.mem_cons.mp hr with rfl | hr
      · exact ⟨s, hs, by omega⟩
      rcases List.mem_cons.mp hr with rfl | hr
      · exact ⟨s, hs, by omega⟩
      · exact ih r (List.mem_cons_of_mem _ hr)
    next =>
      rcases List.mem_cons.mp hr with rfl | hr
      · exact ⟨r, by simp, Nat.le_refl _, Nat.le_refl _⟩
      · obtain ⟨s, hs, hle⟩ := ih r hr
        exact ⟨s, List.mem_cons_of_mem _ hs, hle⟩

theorem exists_within_normalize {rs : List Range} {r : Range} (hr : r ∈ rs) :
    ∃ s ∈ normalize rs, s.first ≤ r.first ∧ r.last ≤ s.last := by
  have hmem : r ∈ rs.mergeSort le := List.mem_mergeSort.mpr hr
  rw [normalize]
  split
  next heq =>
    rw [heq] at hmem
    exact absurd hmem (by simp)
  next first rest heq =>
    rw [heq] at hmem
    exact exists_within_coalesceFrom r hmem

/-- The normal form of a list is uniform exactly if the list is. -/
theorem isUniform_normalize_iff {rs : List Range} :
    (∀ r ∈ normalize rs, r.IsUniform) ↔ ∀ r ∈ rs, r.IsUniform := by
  refine ⟨fun h r hr => ?_, mem_normalize fun _ _ => IsUniform.hull⟩
  obtain ⟨s, hs, hle⟩ := exists_within_normalize hr
  have hsu := h s hs
  simp only [IsUniform] at hsu ⊢
  omega

end Range

/-- The labels of the transitions of a state are uniform. -/
def State.IsUniform (s : State) : Prop := ∀ t ∈ s.transitions, t.range.IsUniform

theorem State.isUniform_isolated (accept : Option Nat) (events : List CaptureEvent) :
    (State.isolated accept events).IsUniform := by
  intro t ht
  exact absurd ht (by simp [State.isolated])

namespace Packed

variable {array : Array Int} {o : Nat} {rank? : Nat → Option StateId}

/-- The pair at an offset goes from a number that is not negative to one that is. -/
def Mixed (array : Array Int) (o : Nat) : Prop :=
  ∃ first last, array[o]? = some first ∧ array[o + 1]? = some last ∧ 0 ≤ first ∧ last < 0

/-- No pair that starts between two offsets is mixed. -/
def Unmixed (array : Array Int) (o next : Nat) : Prop :=
  ∀ i, o ≤ i → i < next → i % 2 = o % 2 → ¬ Mixed array i

theorem unmixed_self : Unmixed array o o := by
  intro i hle hlt
  omega

theorem unmixed_split_iff {mid next : Nat} (ho : o ≤ mid) (hnext : mid ≤ next)
    (hpar : mid % 2 = o % 2) :
    Unmixed array o next ↔ Unmixed array o mid ∧ Unmixed array mid next := by
  constructor
  · intro hall
    exact ⟨fun i hle hlt hi => hall i hle (by omega) hi,
      fun i hle hlt hi => hall i (by omega) hlt (by omega)⟩
  · rintro ⟨hfirst, hlater⟩ i hle hlt hi
    by_cases hin : i < mid
    · exact hfirst i hle hin hi
    · exact hlater i (by omega) hlt (by omega)

theorem unmixed_pair_iff : Unmixed array o (o + 2) ↔ ¬ Mixed array o := by
  constructor
  · exact fun hall => hall o (by omega) (by omega) rfl
  · intro hpair i hle hlt hi
    obtain rfl : i = o := by omega
    exact hpair

/-- The first pair of an interval stands before the others. -/
theorem unmixed_cons_iff {next : Nat} (hnext : o + 2 ≤ next) :
    Unmixed array o next ↔ ¬ Mixed array o ∧ Unmixed array (o + 2) next := by
  rw [unmixed_split_iff (Nat.le_add_right o 2) hnext (Nat.add_mod_right o 2), unmixed_pair_iff]

theorem not_mixed_of_readCount {n : Nat} (h : readCount array (o + 1) = .ok n) :
    ¬ Mixed array o := by
  rintro ⟨_, last, _, hlast, _, hneg⟩
  rw [readCount_eq_ok, hlast, Option.some.injEq] at h
  omega

/-! ## Items -/

/-- A range that is read is uniform exactly if its pair is not mixed. -/
theorem isUniform_readRange_iff {r : Range} (h : readRange array o .ranges = .ok r) :
    r.IsUniform ↔ ¬ Mixed array o := by
  obtain ⟨hfirst, hlast⟩ := readRange_pair_eq_ok.mp h
  have hle := r.first_le_last
  rw [readValue_eq_ok] at hfirst hlast
  have hmixed : Mixed array o ↔ r.first ≤ maxCodepoint ∧ maxCodepoint < r.last := by
    constructor
    · rintro ⟨a, b, ha, hb, hpos, hneg⟩
      rw [ha] at hfirst
      rw [hb] at hlast
      simp only [Option.some.injEq, lineStartCode, textEndCode] at hfirst hlast
      simp only [maxCodepoint, lineStart, textEnd] at hfirst hlast ⊢
      omega
    · rintro ⟨hf, hl⟩
      simp only [maxCodepoint, lineStart, textEnd] at hfirst hlast hf hl
      have hcode : array[o]? = some (r.first : Int) := by
        rcases hfirst with ⟨h, _⟩ | ⟨h, _⟩ | ⟨_, h⟩
        · omega
        · omega
        · exact h
      rcases hlast with ⟨_, hcode'⟩ | ⟨_, hcode'⟩ | ⟨hle', _⟩
      · exact ⟨_, _, hcode, hcode', by omega, by decide⟩
      · exact ⟨_, _, hcode, hcode', by omega, by decide⟩
      · omega
  rw [hmixed, Range.IsUniform]
  omega

theorem isUniform_readRanges_iff {n : Nat} {rs : List Range}
    (h : readRanges array .ranges n o = .ok rs) :
    (∀ r ∈ rs, r.IsUniform) ↔ Unmixed array o (o + 2 * n) := by
  induction n generalizing o rs with
  | zero =>
    obtain rfl : [] = rs := Except.ok.inj h
    exact ⟨fun _ => unmixed_self, fun _ r hr => absurd hr (by simp)⟩
  | succ n ih =>
    obtain ⟨r, rest, hr, hrest, rfl⟩ := readRanges_succ_eq_ok.mp h
    have hend : o + 2 * (n + 1) = o + 2 + 2 * n := by omega
    have hlater : (∀ r ∈ rest, r.IsUniform) ↔ Unmixed array (o + 2) (o + 2 + 2 * n) := ih hrest
    rw [List.forall_mem_cons, isUniform_readRange_iff hr, hlater, hend,
      unmixed_cons_iff (Nat.le_add_right _ _)]

theorem isUniform_of_codepoints {n : Nat} {rs : List Range}
    (h : readRanges array .codepoints n o = .ok rs) : ∀ r ∈ rs, r.IsUniform := by
  induction n generalizing o rs with
  | zero =>
    obtain rfl : [] = rs := Except.ok.inj h
    exact fun r hr => absurd hr (by simp)
  | succ n ih =>
    obtain ⟨r, rest, hr, hrest, rfl⟩ := readRanges_succ_eq_ok.mp h
    obtain ⟨c, _, rfl⟩ := readRange_value_eq_ok.mp hr
    exact List.forall_mem_cons.mpr ⟨Range.isUniform_single c, ih hrest⟩

/-! ## Groups and records -/

/-- The state that groups are added to stays uniform exactly if no pair of the groups is mixed. -/
theorem isUniform_readGroups_iff {n next : Nat} {q q' : State}
    (h : readGroups array .ranges rank? n o q = .ok q')
    (hskip : ∃ h, skipGroups array .ranges n o = .ok ⟨next, h⟩) :
    q'.IsUniform ↔ q.IsUniform ∧ Unmixed array o next := by
  induction n generalizing o q with
  | zero =>
    obtain rfl : q = q' := Except.ok.inj h
    obtain ⟨_, hskip⟩ := hskip
    obtain rfl : o = next := congrArg Subtype.val (Except.ok.inj hskip)
    exact ⟨fun hq => ⟨hq, unmixed_self⟩, fun hq => hq.1⟩
  | succ n ih =>
    obtain ⟨place, target, count, rs, _, _, hcount, hrs, h⟩ := readGroups_succ_eq_ok.mp h
    obtain ⟨count', hcount', hskip⟩ := skipGroups_succ_eq_ok.mp hskip
    obtain rfl : count = count' := Except.ok.inj (hcount.symm.trans hcount')
    obtain ⟨hle, _⟩ := id hskip
    simp only [Encoding.itemSize] at hle h hskip
    have hadd : ((Range.normalize rs).foldl (fun q r => q.addTransition ⟨r, target⟩) q).IsUniform ↔
        q.IsUniform ∧ ∀ r ∈ rs, r.IsUniform := by
      rw [← Range.isUniform_normalize_iff]
      simp only [State.IsUniform, mem_foldl_addTransition]
      constructor
      · intro hall
        exact ⟨fun t ht => hall t (.inl ht), fun r hr => hall ⟨r, target⟩ (.inr ⟨rfl, hr⟩)⟩
      · rintro ⟨hq, hrs⟩ t (ht | ⟨_, ht⟩)
        · exact hq t ht
        · exact hrs t.range ht
    have hhead := not_mixed_of_readCount hcount
    have hcut : Unmixed array o next ↔
        Unmixed array (o + 2) (o + 2 + 2 * count) ∧ Unmixed array (o + 2 + 2 * count) next := by
      rw [unmixed_cons_iff (by omega), and_iff_right hhead,
        unmixed_split_iff (Nat.le_add_right _ _) hle (by omega)]
    rw [ih h hskip, hadd, isUniform_readRanges_iff hrs, hcut, and_assoc]

theorem even_skipGroups {n next : Nat}
    (h : ∃ h, skipGroups array .ranges n o = .ok ⟨next, h⟩) : next % 2 = o % 2 := by
  induction n generalizing o with
  | zero =>
    obtain ⟨_, h⟩ := h
    obtain rfl : o = next := congrArg Subtype.val (Except.ok.inj h)
    rfl
  | succ n ih =>
    obtain ⟨count, _, h⟩ := skipGroups_succ_eq_ok.mp h
    have hnext := ih h
    simp only [Encoding.itemSize] at hnext
    omega

/-- A state is uniform exactly if no pair of its record is mixed. -/
theorem isUniform_readState_iff {next : Nat} {q : State}
    (h : readState array .ranges rank? o = .ok q)
    (hskip : ∃ h, skipRecord array .ranges o = .ok ⟨next, h⟩) :
    q.IsUniform ↔ Unmixed array o next := by
  obtain ⟨accept, groups, _, hcount, hgroups⟩ := readState_eq_ok.mp h
  obtain ⟨groups', hcount', hskip⟩ := skipRecord_eq_ok.mp hskip
  obtain rfl : groups = groups' := Except.ok.inj (hcount.symm.trans hcount')
  have hhead := not_mixed_of_readCount hcount
  obtain ⟨hle, _⟩ := id hskip
  rw [isUniform_readGroups_iff hgroups hskip, and_iff_right (State.isUniform_isolated _ _),
    unmixed_cons_iff hle, and_iff_right hhead]

/-- The states of some records are uniform exactly if no pair of the records is mixed. -/
theorem isUniform_records_iff {stop last : Nat} {places : List Nat} {states : List State}
    (hstarts : starts array .ranges stop o = .ok (places, last))
    (hstates : places.map (readState array .ranges rank?) = states.map .ok) :
    (∀ q ∈ states, q.IsUniform) ↔ Unmixed array o last := by
  induction places generalizing o states with
  | nil =>
    obtain rfl : states = [] := by simpa using hstates.symm
    rcases starts_eq_ok.mp hstarts with ⟨_, _, rfl⟩ | ⟨_, _, _, _, _, h⟩
    · exact ⟨fun _ => unmixed_self, fun _ q hq => absurd hq (by simp)⟩
    · exact absurd h (by simp)
  | cons p places ih =>
    rcases starts_eq_ok.mp hstarts with ⟨_, h, _⟩ | ⟨_, ⟨next, hnext⟩, rest, hskip, hrest, h⟩
    · exact absurd h (by simp)
    obtain ⟨rfl, rfl⟩ := List.cons.inj h
    have hrest : starts array .ranges stop next = .ok (places, last) := hrest
    rw [List.map_cons, eq_comm, List.map_eq_cons_iff] at hstates
    obtain ⟨q, states, rfl, hq, hstates⟩ := hstates
    have hrecord := isUniform_readState_iff hq.symm ⟨hnext, hskip⟩
    obtain ⟨_, _, hgroups⟩ := skipRecord_eq_ok.mp ⟨hnext, hskip⟩
    have heven := even_skipGroups hgroups
    have hle := (le_of_starts hrest).1
    rw [List.forall_mem_cons, hrecord, ih hrest hstates.symm]
    exact (unmixed_split_iff (Nat.le_of_lt hnext) hle (by omega)).symm

/-- The states of a codepoint array are uniform. -/
theorem isUniform_of_readState_codepoints {q : State}
    (h : readState array .codepoints rank? o = .ok q) : q.IsUniform := by
  obtain ⟨_, _, _, _, hgroups⟩ := readState_eq_ok.mp h
  refine readGroups_induction (P := fun t => t.range.IsUniform) ?_ hgroups ?_
  · intro o place target count rs _ hrs r hr
    exact Range.isUniform_normalize_iff.mpr (isUniform_of_codepoints hrs) r hr
  · exact State.isUniform_isolated _ _

/-- The states that an array is read as are uniform exactly if it is a codepoint array or has no
mixed pair at an even offset. -/
theorem isUniform_states_iff {a : Automaton} (h : decode array = .ok a) :
    (∀ q ∈ a.states, q.IsUniform) ↔
      ¬ (isRangeArray array = true ∧ ∃ i, i % 2 = 0 ∧ Mixed array i) := by
  by_cases hne : array = #[]
  · subst hne
    obtain rfl : Automaton.trivial = a := Except.ok.inj h
    have hmixed : ¬ ∃ i, i % 2 = 0 ∧ Mixed #[] i := by
      rintro ⟨i, _, first, _, hfirst, _⟩
      exact absurd hfirst (by simp)
    refine ⟨fun _ h => hmixed h.2, fun _ q hq => ?_⟩
    obtain rfl : q = default := by simpa [Automaton.trivial] using hq
    exact State.isUniform_isolated _ _
  · obtain ⟨stop, places, last, states, hstop, hstarts, hle, hstates, rfl⟩ :=
      (decode_eq_ok hne).mp h
    cases he : encodingOf array with
    | ranges =>
      have hrange : isRangeArray array = true := by
        by_contra hnot
        rw [encodingOf, if_neg hnot] at he
        exact absurd he (by simp)
      rw [he] at hstop hstarts hstates
      -- The records of a range array are all of it.
      obtain rfl : array.size = stop := Except.ok.inj hstop
      have hlast : last = array.size := Nat.le_antisymm hle (le_of_starts hstarts).2
      have hiff : (∀ q ∈ states, q.IsUniform) ↔ Unmixed array 0 last :=
        isUniform_records_iff hstarts (mapM_eq_ok.mp hstates)
      simp only [hrange, true_and, not_exists, not_and]
      rw [show (∀ q ∈ (Automaton.mk states.toArray 0).states, q.IsUniform) ↔
        ∀ q ∈ states, q.IsUniform by simp, hiff]
      constructor
      · intro hall i hpar hmixed
        obtain ⟨first, _, hfirst, _⟩ := id hmixed
        obtain ⟨hlt, _⟩ := Array.getElem?_eq_some_iff.mp hfirst
        exact hall i (Nat.zero_le _) (by omega) (by omega) hmixed
      · exact fun hall i _ _ hpar => hall i (by omega)
    | codepoints =>
      have hrange : ¬ isRangeArray array = true := by
        intro hrange
        rw [encodingOf, if_pos hrange] at he
        exact absurd he (by simp)
      rw [he] at hstates
      refine ⟨fun _ h => hrange h.1, fun _ q hq => ?_⟩
      obtain ⟨p, _, hp⟩ := exists_place_of_mapM hstates (show q ∈ states by simpa using hq)
      exact isUniform_of_readState_codepoints hp

end Packed

end PositionAutomata
