import PositionAutomata.Charset.Alphabet

/-
  Letters and the ranges that induce them.

  The letters of a list of ranges follow each other without overlap
  (`pairwise_letters`) and hold every code point (`exists_letter`). No bound of
  a range lies inside a letter, so a range that shares a value with a letter
  holds all of it (`contains_of_intersects`): a leaf reads the whole letter or
  nothing of it.
-/

namespace PositionAutomata.Alphabet

/-- The bounds of a list of points up to the greatest code point, in ascending order. -/
structure Points (ps : List Nat) : Prop where
  sorted : ps.Pairwise (· < ·)
  bounded : ∀ p ∈ ps, p ≤ maxCodepoint

theorem Points.tail {p : Nat} {ps : List Nat} (h : Points (p :: ps)) : Points ps :=
  ⟨(List.pairwise_cons.mp h.sorted).2, fun q hq => h.bounded q (List.mem_cons_of_mem _ hq)⟩

theorem Points.head_lt {p q : Nat} {ps : List Nat} (h : Points (p :: ps)) (hq : q ∈ ps) : p < q :=
  (List.pairwise_cons.mp h.sorted).1 q hq

theorem Points.last_head {p q : Nat} {ps : List Nat} (h : Points (p :: q :: ps)) :
    (Range.upTo p (q - 1)).last = q - 1 := by
  have := h.head_lt (q := q) (by simp)
  simp only [Range.upTo]
  omega

theorem Points.last_only {p : Nat} (h : Points [p]) :
    (Range.upTo p maxCodepoint).last = maxCodepoint := by
  have := h.bounded p (by simp)
  simp only [Range.upTo]
  omega

/-! ## The intervals between points -/

theorem first_mem_of_mem_intervals {l : Range} :
    ∀ {ps : List Nat}, l ∈ intervals ps → l.first ∈ ps
  | [], h => absurd h List.not_mem_nil
  | [p], h => by
    cases List.mem_singleton.mp h
    simp [Range.upTo]
  | p :: q :: ps, h => by
    rcases List.mem_cons.mp h with rfl | h
    · simp [Range.upTo]
    · exact List.mem_cons_of_mem _ (first_mem_of_mem_intervals h)

theorem last_le_of_mem_intervals {l : Range} :
    ∀ {ps : List Nat}, Points ps → l ∈ intervals ps → l.last ≤ maxCodepoint
  | [], _, h => absurd h List.not_mem_nil
  | [p], hp, h => by
    have hlast : l.last = maxCodepoint := by rw [List.mem_singleton.mp h, hp.last_only]
    exact Nat.le_of_eq hlast
  | p :: q :: ps, hp, h => by
    rcases List.mem_cons.mp h with rfl | h
    · rw [hp.last_head]
      have := hp.bounded q (by simp)
      omega
    · exact last_le_of_mem_intervals hp.tail h

/-- No point lies inside an interval, its beginning apart. -/
theorem not_point_inside {l : Range} {x : Nat} :
    ∀ {ps : List Nat}, Points ps → l ∈ intervals ps → x ∈ ps → ¬ (l.first < x ∧ x ≤ l.last)
  | [], _, h, _ => absurd h List.not_mem_nil
  | [p], _, h, hx => by
    cases List.mem_singleton.mp h
    cases List.mem_singleton.mp hx
    simp [Range.upTo]
  | p :: q :: ps, hp, h, hx => by
    rcases List.mem_cons.mp h with hl | hl
    · rw [hl, hp.last_head]
      rcases List.mem_cons.mp hx with rfl | hx
      · exact fun hlt => Nat.lt_irrefl _ hlt.1
      · have hpq := hp.head_lt (q := q) (by simp)
        -- The interval ends before `q`, and all points after `p` are `q` or more.
        have hqx : q ≤ x := by
          rcases List.mem_cons.mp hx with rfl | hx
          · exact Nat.le_refl _
          · exact Nat.le_of_lt (hp.tail.head_lt hx)
        omega
    · rcases List.mem_cons.mp hx with rfl | hx
      · have := hp.head_lt (first_mem_of_mem_intervals hl)
        omega
      · exact not_point_inside hp.tail hl hx

theorem pairwise_intervals :
    ∀ {ps : List Nat}, Points ps → (intervals ps).Pairwise fun x y => x.last < y.first
  | [], _ => .nil
  | [_], _ => List.pairwise_singleton _ _
  | p :: q :: ps, hp => by
    refine List.pairwise_cons.mpr ⟨fun y hy => ?_, pairwise_intervals hp.tail⟩
    rw [hp.last_head]
    have hpq := hp.head_lt (q := q) (by simp)
    rcases List.mem_cons.mp (first_mem_of_mem_intervals hy) with h | h
    · omega
    · have := hp.tail.head_lt h
      omega

/-- The intervals hold all code points from the first point on. -/
theorem exists_interval {p : Nat} {ps : List Nat} (hp : Points (p :: ps)) {c : Nat} (hpc : p ≤ c)
    (hc : c ≤ maxCodepoint) : ∃ l ∈ intervals (p :: ps), l.contains c = true := by
  induction ps generalizing p with
  | nil =>
    refine ⟨.upTo p maxCodepoint, by simp [intervals], Range.contains_iff.mpr ⟨hpc, ?_⟩⟩
    rw [hp.last_only]
    exact hc
  | cons q ps ih =>
    by_cases hqc : q ≤ c
    · obtain ⟨l, hl, hlc⟩ := ih hp.tail hqc
      exact ⟨l, List.mem_cons_of_mem _ hl, hlc⟩
    · refine ⟨_, List.mem_cons_self, Range.contains_iff.mpr ⟨hpc, ?_⟩⟩
      rw [hp.last_head]
      omega

/-! ## Letters -/

theorem points_ofRanges (rs : List Range) : Points (ofRanges rs).points.toList := by
  refine ⟨(ofRanges rs).points.sorted, fun p hp => ?_⟩
  have hp : p ∈ (ofRanges rs).points := hp
  simp only [ofRanges, SortedSet.mem_ofList, List.mem_cons, List.mem_flatMap] at hp
  rcases hp with rfl | ⟨r, _, hp⟩
  · exact Nat.zero_le _
  · by_cases ha : r.isAnchor = true
    · exact absurd hp (by simp [bounds, ha])
    · have hfirst : r.first ≤ maxCodepoint :=
        Nat.not_lt.mp fun hlt => ha (Range.isAnchor_iff.mpr hlt)
      -- The bound after the last value is left out where it would be above the code points.
      by_cases hlast : r.last < maxCodepoint
      · have hcases : p = r.first ∨ p = r.last + 1 := by simpa [bounds, ha, hlast] using hp
        omega
      · have hcases : p = r.first := by simpa [bounds, ha, hlast] using hp
        omega

theorem bound_mem_points {rs : List Range} {r : Range} (hr : r ∈ rs) {p : Nat}
    (hp : p ∈ bounds r) : p ∈ (ofRanges rs).points := by
  simp only [ofRanges, SortedSet.mem_ofList]
  exact List.mem_cons_of_mem _ (List.mem_flatMap.mpr ⟨r, hr, hp⟩)

theorem mem_anchors {rs : List Range} {x : Nat} :
    x ∈ (ofRanges rs).anchors ↔ ∃ r ∈ rs, r.isAnchor = true ∧ r.first = x := by
  refine SortedSet.mem_ofList.trans (List.mem_map.trans (exists_congr fun r => ?_))
  rw [List.mem_filter, and_assoc]

/-- A letter is an interval of code points or one value above them. -/
theorem letter_cases {rs : List Range} {l : Range} (h : l ∈ (ofRanges rs).letters) :
    l ∈ intervals (ofRanges rs).points.toList ∨
      ∃ x ∈ (ofRanges rs).anchors, maxCodepoint < x ∧ l = .single x := by
  rcases List.mem_append.mp h with h | h
  · exact .inl h
  · obtain ⟨x, hx, rfl⟩ := List.mem_map.mp h
    obtain ⟨r, _, ha, rfl⟩ := mem_anchors.mp hx
    exact .inr ⟨_, hx, Range.isAnchor_iff.mp ha, rfl⟩

theorem bounds_of_mem_letters {rs : List Range} {l : Range} (h : l ∈ (ofRanges rs).letters) :
    l.last ≤ maxCodepoint ∨ (maxCodepoint < l.first ∧ l.first = l.last) := by
  rcases letter_cases h with h | ⟨x, _, hx, rfl⟩
  · exact .inl (last_le_of_mem_intervals (points_ofRanges rs) h)
  · exact .inr ⟨hx, rfl⟩

/-- Letters ascend without overlap. -/
theorem pairwise_letters (rs : List Range) :
    (ofRanges rs).letters.Pairwise fun x y => x.last < y.first := by
  refine List.pairwise_append.mpr ⟨pairwise_intervals (points_ofRanges rs), ?_, ?_⟩
  · exact List.pairwise_map.mpr (ofRanges rs).anchors.sorted
  · intro x hx y hy
    obtain ⟨z, hz, rfl⟩ := List.mem_map.mp hy
    obtain ⟨r, _, ha, rfl⟩ := mem_anchors.mp hz
    exact Nat.lt_of_le_of_lt (last_le_of_mem_intervals (points_ofRanges rs) hx)
      (Range.isAnchor_iff.mp ha)

theorem exists_letter (rs : List Range) {c : Nat} (hc : c ≤ maxCodepoint) :
    ∃ l ∈ (ofRanges rs).letters, l.isAnchor = false ∧ l.contains c = true := by
  have hz : 0 ∈ (ofRanges rs).points.toList := zero_mem_points rs
  have hp := points_ofRanges rs
  cases hps : (ofRanges rs).points.toList with
  | nil =>
    rw [hps] at hz
    exact absurd hz (by simp)
  | cons p ps =>
    rw [hps] at hz hp
    have hp0 : p ≤ c := by
      rcases List.mem_cons.mp hz with h | h
      · omega
      · exact absurd (hp.head_lt h) (by omega)
    obtain ⟨l, hl, hlc⟩ := exists_interval hp hp0 hc
    refine ⟨l, List.mem_append.mpr (.inl (by rwa [hps])), ?_, hlc⟩
    have := (Range.contains_iff.mp hlc).1
    simp only [Range.isAnchor, decide_eq_false_iff_not]
    omega

/-- The letter of an anchor range is that anchor. -/
theorem single_mem_letters {rs : List Range} {r : Range} (hr : r ∈ rs) (ha : r.isAnchor = true) :
    .single r.first ∈ (ofRanges rs).letters := by
  refine List.mem_append.mpr (.inr (List.mem_map.mpr ⟨r.first, ?_, rfl⟩))
  exact mem_anchors.mpr ⟨r, hr, ha, rfl⟩

/-- A range that shares a value with a letter holds the whole letter. -/
theorem contains_of_intersects {rs : List Range} {r l : Range} (hr : r ∈ rs)
    (hl : l ∈ (ofRanges rs).letters) (h : l.intersects r = true) {c : Nat}
    (hc : l.contains c = true) : r.contains c = true := by
  obtain ⟨v, hlv, hrv⟩ := Range.intersects_iff.mp h
  rw [Range.contains_iff] at hlv hrv hc ⊢
  rcases letter_cases hl with hl | ⟨x, _, _, rfl⟩
  · have hp := points_ofRanges rs
    have hmax := last_le_of_mem_intervals hp hl
    have hna : r.isAnchor = false := by
      simp only [Range.isAnchor, decide_eq_false_iff_not]
      omega
    -- Neither the first value of the range nor the one after its last lies inside the letter.
    have hfirst : r.first ∈ bounds r := by
      rw [bounds, hna]
      by_cases hlast : r.last < maxCodepoint <;> simp [hlast]
    have hlow := not_point_inside hp hl (bound_mem_points hr hfirst)
    by_cases hlast : r.last < maxCodepoint
    · have hnext : r.last + 1 ∈ bounds r := by simp [bounds, hna, hlast]
      have hhigh := not_point_inside hp hl (bound_mem_points hr hnext)
      omega
    · omega
  · simp only [Range.single] at hlv hc
    omega

end PositionAutomata.Alphabet
