import PositionAutomata.Proofs.Charset.Anchors

/-
  Normal lists of ranges.

  In a normal list the ranges ascend and no two touch (`Range.IsNormal`).
  `Range.normalize` answers such a list (`isNormal_normalize`) with the values
  it was given (`contains_normalize`), and leaves a list alone that is normal
  already (`normalize_of_isNormal`). Where no range joins code points and
  anchors it also puts a normal list together again from its single values
  (`normalize_singles`).
-/

namespace PositionAutomata.Range

@[simp] theorem single_first (c : Nat) : (single c).first = c := rfl

@[simp] theorem single_last (c : Nat) : (single c).last = c := rfl

/-! ## The order of ranges -/

theorem le_iff {r s : Range} :
    r.le s = true ↔ r.first < s.first ∨ r.first = s.first ∧ r.last ≤ s.last := by
  simp [le]

theorem le_trans {r s t : Range} (hrs : r.le s = true) (hst : s.le t = true) : r.le t = true := by
  rw [le_iff] at hrs hst ⊢
  omega

theorem le_total (r s : Range) : (r.le s || s.le r) = true := by
  rw [Bool.or_eq_true, le_iff, le_iff]
  omega

theorem le_antisymm {r s : Range} (hrs : r.le s = true) (hsr : s.le r = true) : r = s := by
  rw [le_iff] at hrs hsr
  obtain ⟨rf, rl, _⟩ := r
  obtain ⟨sf, sl, _⟩ := s
  simp only [mk.injEq] at hrs hsr ⊢
  omega

theorem pairwise_mergeSort (rs : List Range) : (rs.mergeSort le).Pairwise (le · ·) := by
  apply List.pairwise_mergeSort
  · exact fun _ _ _ => le_trans
  · exact le_total

/-- A range that comes before another one and does not touch it. -/
def Before (r s : Range) : Prop := r.le s = true ∧ r.touches s = false

/-- The ranges ascend and no two touch. -/
def IsNormal (rs : List Range) : Prop := rs.Pairwise Before

/-- Before an anchor stands any lesser range, and before a range of code points one that ends with
a gap between them. -/
theorem before_iff {r s : Range} :
    r.Before s ↔ r.le s = true ∧ r ≠ s ∧ (maxCodepoint < s.first ∨ r.last + 1 < s.first) := by
  have hs := s.first_le_last
  refine and_congr_right fun hle => ?_
  rw [le_iff] at hle
  have hne : r.last + 1 < s.first → r ≠ s := by
    rintro h rfl
    omega
  rw [touches]
  split
  next ha =>
    simp only [Bool.or_eq_true, isAnchor_iff] at ha
    have hfirst : maxCodepoint < s.first := by omega
    simp [hfirst]
  next ha =>
    simp only [Bool.or_eq_true, isAnchor_iff, not_or] at ha
    rw [Bool.and_eq_false_iff, decide_eq_false_iff_not, decide_eq_false_iff_not]
    constructor
    · intro h
      have hgap : r.last + 1 < s.first := by omega
      exact ⟨hne hgap, .inr hgap⟩
    · intro h
      omega

theorem Before.trans_le {r s t : Range} (hrs : r.Before s) (hst : s.le t = true) : r.Before t := by
  have hrt := le_trans hrs.1 hst
  rw [before_iff] at hrs ⊢
  have hne : r ≠ t := by
    intro h
    subst h
    exact hrs.2.1 (le_antisymm hrs.1 hst)
  rw [le_iff] at hst
  exact ⟨hrt, hne, by omega⟩

theorem Before.hull {r s t : Range} (hrs : r.Before s) (hrt : r.Before t) :
    r.Before (s.hull t) := by
  -- One of the two ranges begins the hull, and the hull does not come before it.
  rcases Nat.lt_or_ge t.first s.first with h | h
  · refine hrt.trans_le (le_iff.mpr ?_)
    simp only [Range.hull]
    omega
  · refine hrs.trans_le (le_iff.mpr ?_)
    simp only [Range.hull]
    omega

/-! ## Joining gives normal lists -/

theorem hull_le {r s t : Range} (hrt : r.le t = true) (hst : s.le t = true) :
    (r.hull s).le t = true := by
  rw [le_iff] at hrt hst ⊢
  simp only [hull]
  omega

theorem isNormal_coalesceFrom {current : Range} {rs : List Range}
    (h : (current :: rs).Pairwise (le · ·)) : IsNormal (coalesceFrom current rs) := by
  induction rs generalizing current with
  | nil => exact List.pairwise_singleton _ _
  | cons next rest ih =>
    obtain ⟨hcurrent, hnext⟩ := List.pairwise_cons.mp h
    obtain ⟨hnextRest, hrest⟩ := List.pairwise_cons.mp hnext
    rw [coalesceFrom]
    split
    next =>
      apply ih
      refine List.pairwise_cons.mpr ⟨fun s hs => ?_, hrest⟩
      exact hull_le (hcurrent s (List.mem_cons_of_mem _ hs)) (hnextRest s hs)
    next ht =>
      have hbefore : current.Before next := ⟨hcurrent next (by simp), by simpa using ht⟩
      refine List.pairwise_cons.mpr ⟨?_, ih hnext⟩
      exact mem_coalesceFrom (fun _ _ hs ht _ => hs.hull ht) hbefore
        fun s hs => hbefore.trans_le (hnextRest s hs)

theorem isNormal_normalize (rs : List Range) : IsNormal (normalize rs) := by
  have hsorted := pairwise_mergeSort rs
  rw [normalize]
  split
  next => exact List.Pairwise.nil
  next r rest heq =>
    rw [heq] at hsorted
    exact isNormal_coalesceFrom hsorted

theorem coalesceFrom_of_isNormal {current : Range} {rs : List Range}
    (h : IsNormal (current :: rs)) : coalesceFrom current rs = current :: rs := by
  induction rs generalizing current with
  | nil => rfl
  | cons next rest ih =>
    obtain ⟨hcurrent, hnext⟩ := List.pairwise_cons.mp h
    rw [coalesceFrom, (hcurrent next (by simp)).2, ih hnext]
    rfl

theorem IsNormal.mergeSort {rs : List Range} (h : IsNormal rs) : rs.mergeSort le = rs :=
  List.mergeSort_of_pairwise (h.imp And.left)

theorem normalize_of_isNormal {rs : List Range} (h : IsNormal rs) : normalize rs = rs := by
  rw [normalize, h.mergeSort]
  cases rs with
  | nil => rfl
  | cons r rest => exact coalesceFrom_of_isNormal h

/-! ## Joining keeps the values -/

theorem contains_hull {r s : Range} (ht : r.touches s = true) {c : Nat} :
    (r.hull s).contains c = true ↔ r.contains c = true ∨ s.contains c = true := by
  have hr := r.first_le_last
  have hs := s.first_le_last
  rw [touches] at ht
  split at ht
  next =>
    obtain rfl : r = s := by simpa using ht
    simp only [contains_iff, hull]
    omega
  next =>
    rw [Bool.and_eq_true, decide_eq_true_eq, decide_eq_true_eq] at ht
    simp only [contains_iff, hull]
    omega

theorem contains_coalesceFrom {current : Range} {rs : List Range} {c : Nat} :
    (∃ r ∈ coalesceFrom current rs, r.contains c = true) ↔
      ∃ r ∈ current :: rs, r.contains c = true := by
  induction rs generalizing current with
  | nil => rfl
  | cons next rest ih =>
    rw [coalesceFrom]
    split
    next ht =>
      rw [ih]
      simp only [List.mem_cons, exists_eq_or_imp, contains_hull ht, or_assoc]
    next =>
      simp only [List.mem_cons, exists_eq_or_imp] at ih ⊢
      rw [ih]

/-- The normal form holds the values of the list. -/
theorem contains_normalize {rs : List Range} {c : Nat} :
    (∃ r ∈ normalize rs, r.contains c = true) ↔ ∃ r ∈ rs, r.contains c = true := by
  have hsort : (∃ r ∈ rs.mergeSort le, r.contains c = true) ↔ ∃ r ∈ rs, r.contains c = true := by
    simp only [List.mem_mergeSort]
  rw [normalize, ← hsort]
  split
  next heq => rw [heq]
  next r rest heq => rw [heq, contains_coalesceFrom]

/-! ## Single values -/

/-- The values of a list of ranges, each as a range of its own. -/
def singles (rs : List Range) : List Range := rs.flatMap fun r => r.codepoints.map single

theorem singles_cons (r : Range) (rs : List Range) :
    singles (r :: rs) = r.codepoints.map single ++ singles rs := rfl

theorem codepoints_eq_cons (r : Range) :
    r.codepoints = r.first :: List.range' (r.first + 1) (r.last - r.first) := rfl

/-- Code points that follow a range one by one are joined to it. -/
theorem coalesceFrom_range' {r : Range} {n : Nat} (hn : r.last + n ≤ maxCodepoint)
    (rs : List Range) :
    coalesceFrom r ((List.range' (r.last + 1) n).map single ++ rs) =
      coalesceFrom ⟨r.first, r.last + n, Nat.le_add_right_of_le r.first_le_last⟩ rs := by
  have hr := r.first_le_last
  induction n generalizing r with
  | zero => rfl
  | succ n ih =>
    have ht : r.touches (single (r.last + 1)) = true := by
      rw [touches, if_neg]
      · rw [Bool.and_eq_true, decide_eq_true_eq, decide_eq_true_eq, single_first, single_last]
        omega
      · rw [Bool.or_eq_true, isAnchor_iff, isAnchor_iff, single_first]
        omega
    have hhull : r.hull (single (r.last + 1)) = ⟨r.first, r.last + 1, by omega⟩ := by
      simp only [hull, single_first, single_last, mk.injEq]
      omega
    rw [List.range'_succ, List.map_cons, List.cons_append, coalesceFrom, if_pos ht, hhull,
      ih (by simp only; omega) (by simp only; omega)]
    simp only [Nat.add_assoc, Nat.add_comm 1]

/-- A sharp range is put together again from its single values. -/
theorem coalesceFrom_codepoints {r : Range} (hr : r.IsSharp) (rs : List Range) :
    coalesceFrom (single r.first)
        ((List.range' (r.first + 1) (r.last - r.first)).map single ++ rs) =
      coalesceFrom r rs := by
  have hle := r.first_le_last
  rcases hr with hlast | heq
  · have hjoin := coalesceFrom_range' (r := single r.first) (n := r.last - r.first)
      (by simp only [single]; omega) rs
    simp only [single, Nat.add_sub_cancel' hle] at hjoin ⊢
    exact hjoin
  · obtain ⟨first, last, _⟩ := r
    obtain rfl : first = last := heq
    simp [single]

theorem before_single {r s : Range} (h : r.Before s) (hs : s.IsSharp) :
    r.Before (single s.first) := by
  by_cases heq : s.first = s.last
  · obtain ⟨first, last, _⟩ := s
    obtain rfl : first = last := heq
    exact h
  · have hle := s.first_le_last
    have hr := r.first_le_last
    have hgap : r.last + 1 < s.first := (before_iff.mp h).2.2.resolve_left (by
      have hlast := hs.resolve_right heq
      omega)
    refine before_iff.mpr ⟨le_iff.mpr (.inl ?_), ?_, .inr hgap⟩
    · rw [single_first]
      omega
    · rintro rfl
      rw [single_last] at hgap
      omega

theorem coalesceFrom_singles {r : Range} {rs : List Range} (hn : IsNormal (r :: rs))
    (hsharp : ∀ s ∈ rs, s.IsSharp) : coalesceFrom r (singles rs) = r :: rs := by
  induction rs generalizing r with
  | nil => rfl
  | cons s rest ih =>
    obtain ⟨hs, hrest⟩ := List.forall_mem_cons.mp hsharp
    obtain ⟨hbefore, hnormal⟩ := List.pairwise_cons.mp hn
    rw [singles_cons, codepoints_eq_cons, List.map_cons, List.cons_append, coalesceFrom,
      (before_single (hbefore s (by simp)) hs).2, coalesceFrom_codepoints hs, ih hnormal hrest]
    rfl

theorem Before.le_of_contains {r s : Range} (h : r.Before s) (hr : r.IsSharp) {b c : Nat}
    (hb : r.contains b = true) (hc : s.contains c = true) : b ≤ c := by
  obtain ⟨hle, -, hgap⟩ := before_iff.mp h
  rw [contains_iff] at hb hc
  rw [le_iff] at hle
  rw [IsSharp] at hr
  omega

theorem pairwise_singles {rs : List Range} (hn : IsNormal rs) (hsharp : ∀ r ∈ rs, r.IsSharp) :
    (singles rs).Pairwise (le · ·) := by
  have hle : ∀ {b c : Nat}, b ≤ c → (single b).le (single c) = true := by
    intro b c h
    rw [le_iff, single_first, single_first, single_last, single_last]
    omega
  refine List.pairwise_flatMap.mpr ⟨fun r _ => ?_, ?_⟩
  · refine List.pairwise_map.mpr ((List.pairwise_lt_range' 1).imp fun h => hle (Nat.le_of_lt h))
  · refine hn.imp_of_mem fun hr _ h x hx y hy => ?_
    obtain ⟨b, hb, rfl⟩ := List.mem_map.mp hx
    obtain ⟨c, hc, rfl⟩ := List.mem_map.mp hy
    exact hle (h.le_of_contains (hsharp _ hr) (mem_codepoints.mp hb) (mem_codepoints.mp hc))

/-- A normal list of sharp ranges is the normal form of its single values. -/
theorem normalize_singles {rs : List Range} (hn : IsNormal rs) (hsharp : ∀ r ∈ rs, r.IsSharp) :
    normalize (singles rs) = rs := by
  rw [normalize, List.mergeSort_of_pairwise (pairwise_singles hn hsharp)]
  cases rs with
  | nil => rfl
  | cons r rest =>
    obtain ⟨hr, hrest⟩ := List.forall_mem_cons.mp hsharp
    rw [singles_cons, codepoints_eq_cons, List.map_cons, List.cons_append]
    exact (coalesceFrom_codepoints hr _).trans (coalesceFrom_singles hn hrest)

end PositionAutomata.Range
