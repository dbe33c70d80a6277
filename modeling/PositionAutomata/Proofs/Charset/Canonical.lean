import Mathlib.Data.List.Basic
import PositionAutomata.Proofs.Charset.Normal

/-
  What the normal form of a list of ranges is.

  The anchors of a list are in its normal form as they are, each once, and come
  last (`mem_normalize_of_isAnchor`). Before them stand the runs of the values
  that the other ranges hold: the ranges all of whose values are held while the
  neighbours on both sides are not (`IsRun`, `mem_normalize_iff`). Runs are told
  by the values alone, so the normal form does not depend on how the values were
  cut into ranges (`normalize_canonical`).
-/

namespace PositionAutomata.Range

variable {p : Nat → Prop} {r s : Range} {rs ss : List Range} {c : Nat}

/-- Where no value lies above `top`, ranges of code points touch alike if `top` counts as the
value after itself. -/
theorem touches_below {top : Nat} (hr : r.last ≤ top) (hs : s.last ≤ top)
    (hra : r.isAnchor = false) (hsa : s.isAnchor = false) :
    r.touches s = (r.first ≤ min (s.last + 1) top && s.first ≤ min (r.last + 1) top) := by
  have hrf := r.first_le_last
  have hsf := s.first_le_last
  rw [touches, hra, hsa, Bool.eq_iff_iff]
  simp only [Bool.or_self, Bool.false_eq_true, if_false, Bool.and_eq_true, decide_eq_true_eq]
  omega

/-! ## Anchors and other ranges are never joined -/

theorem isAnchor_eq_false_iff : r.isAnchor = false ↔ r.first ≤ maxCodepoint := by
  rw [isAnchor, decide_eq_false_iff_not, Nat.not_lt]

/-- Ranges that touch are both anchors, and so is what they are joined to, or none is. -/
theorem isAnchor_of_touches (h : r.touches s = true) :
    s.isAnchor = r.isAnchor ∧ (r.hull s).isAnchor = r.isAnchor := by
  rw [touches] at h
  split at h
  next =>
    obtain rfl : r = s := by simpa using h
    simp [isAnchor, hull]
  next ha =>
    simp only [Bool.or_eq_true, isAnchor_iff, not_or, Nat.not_lt] at ha
    have hr : r.isAnchor = false := isAnchor_eq_false_iff.mpr ha.1
    have hs : s.isAnchor = false := isAnchor_eq_false_iff.mpr ha.2
    have hhull : (r.hull s).isAnchor = false :=
      isAnchor_eq_false_iff.mpr (Nat.le_trans (Nat.min_le_left _ _) ha.1)
    rw [hr, hs, hhull]
    exact ⟨rfl, rfl⟩

theorem hull_of_touches_of_isAnchor (h : r.touches s = true) (hr : r.isAnchor = true) :
    s = r ∧ r.hull s = r := by
  rw [touches, hr, Bool.true_or, if_pos rfl] at h
  obtain rfl : r = s := by simpa using h
  simp [hull]

theorem mem_coalesceFrom_of_isAnchor {a current : Range} (ha : a.isAnchor = true) :
    a ∈ coalesceFrom current rs ↔ a ∈ current :: rs := by
  induction rs generalizing current with
  | nil => rfl
  | cons next rest ih =>
    rw [coalesceFrom]
    split
    next ht =>
      rw [ih]
      obtain ⟨hnext, hhull⟩ := isAnchor_of_touches ht
      cases hc : current.isAnchor with
      | true =>
        obtain ⟨rfl, heq⟩ := hull_of_touches_of_isAnchor ht hc
        simp only [heq, List.mem_cons, or_self_left]
      | false =>
        have hne : ∀ x : Range, x.isAnchor = false → a ≠ x := by
          rintro x hx rfl
          exact absurd ha (by simp [hx])
        simp only [List.mem_cons, hne _ hc, hne _ (hnext.trans hc), hne _ (hhull.trans hc),
          false_or]
    next => simp only [List.mem_cons, ih]

/-- An anchor is in the normal form exactly if it is in the list. -/
theorem mem_normalize_of_isAnchor (h : r.isAnchor = true) : r ∈ normalize rs ↔ r ∈ rs := by
  have hsort : r ∈ rs.mergeSort le ↔ r ∈ rs := List.mem_mergeSort
  rw [normalize, ← hsort]
  split
  next heq => rw [heq]
  next heq => rw [heq, mem_coalesceFrom_of_isAnchor h]

/-! ## Runs of values -/

/-- Some range of the list that is no anchor holds the value. -/
def Covered (rs : List Range) (c : Nat) : Prop :=
  ∃ r ∈ rs, r.isAnchor = false ∧ r.contains c = true

theorem covered_cons : Covered (r :: rs) c ↔
    r.isAnchor = false ∧ r.contains c = true ∨ Covered rs c := by
  simp only [Covered, List.mem_cons, exists_eq_or_imp]

theorem covered_coalesceFrom {current : Range} :
    Covered (coalesceFrom current rs) c ↔ Covered (current :: rs) c := by
  induction rs generalizing current with
  | nil => rfl
  | cons next rest ih =>
    rw [coalesceFrom]
    split
    next ht =>
      obtain ⟨hnext, hhull⟩ := isAnchor_of_touches ht
      rw [ih, covered_cons, covered_cons, covered_cons, hhull, hnext, contains_hull ht, and_or_left,
        or_assoc]
    next => rw [covered_cons, covered_cons, ih]

theorem covered_normalize : Covered (normalize rs) c ↔ Covered rs c := by
  have hsort : Covered (rs.mergeSort le) c ↔ Covered rs c := by
    simp only [Covered, List.mem_mergeSort]
  rw [normalize, ← hsort]
  split
  next heq => rw [heq]
  next heq => rw [heq, covered_coalesceFrom]

/-- All values of the range have the property, and the neighbours on both sides lack it. -/
structure IsRun (p : Nat → Prop) (r : Range) : Prop where
  inside : ∀ c, r.contains c = true → p c
  below : ∀ c, c + 1 = r.first → ¬ p c
  above : ¬ p (r.last + 1)

/-- A run that shares a value with another one does not start later. -/
theorem IsRun.first_le (hr : IsRun p r) (hs : IsRun p s) (hc : r.contains c = true)
    (hc' : s.contains c = true) : r.first ≤ s.first := by
  rw [contains_iff] at hc hc'
  by_contra hlt
  refine hr.below (r.first - 1) (by omega) (hs.inside _ ?_)
  rw [contains_iff]
  omega

theorem IsRun.last_le (hr : IsRun p r) (hs : IsRun p s) (hc : r.contains c = true)
    (hc' : s.contains c = true) : s.last ≤ r.last := by
  rw [contains_iff] at hc hc'
  by_contra hlt
  refine hr.above (hs.inside _ ?_)
  rw [contains_iff]
  omega

/-- Runs that share a value are one run. -/
theorem IsRun.eq_of_contains (hr : IsRun p r) (hs : IsRun p s) (hc : r.contains c = true)
    (hc' : s.contains c = true) : r = s := by
  have hfirst := Nat.le_antisymm (hr.first_le hs hc hc') (hs.first_le hr hc' hc)
  have hlast := Nat.le_antisymm (hs.last_le hr hc' hc) (hr.last_le hs hc hc')
  obtain ⟨rf, rl, _⟩ := r
  obtain ⟨sf, sl, _⟩ := s
  simp_all

/-- Of two ranges of a normal list one comes before the other. -/
theorem IsNormal.eq_or_before (h : IsNormal rs) (hr : r ∈ rs) (hs : s ∈ rs) :
    r = s ∨ r.Before s ∨ s.Before r :=
  List.Pairwise.forall_of_forall_of_flip (R := fun r s => r = s ∨ r.Before s ∨ s.Before r)
    (fun _ _ => .inl rfl) (h.imp fun h => .inr (.inl h)) (h.imp fun h => .inr (.inr h)) hr hs

/-- A range of a normal list that is no anchor is a run of what such ranges of it hold. -/
theorem IsNormal.isRun (h : IsNormal rs) (hr : r ∈ rs) (ha : r.isAnchor = false) :
    IsRun (Covered rs) r := by
  have hle := r.first_le_last
  have hcode := isAnchor_eq_false_iff.mp ha
  -- A range that holds a neighbour would come before or after without a gap.
  have hgap : ∀ c, c + 1 = r.first ∨ c = r.last + 1 → ¬ Covered rs c := by
    rintro c hc ⟨s, hs, hsa, hcs⟩
    have hscode := isAnchor_eq_false_iff.mp hsa
    rw [contains_iff] at hcs
    rcases h.eq_or_before hr hs with rfl | hrs | hsr
    · omega
    · have := (before_iff.mp hrs).2.2
      omega
    · have := (before_iff.mp hsr).2.2
      omega
  exact ⟨fun c hc => ⟨r, hr, ha, hc⟩, fun c hc => hgap c (.inl hc), hgap _ (.inr rfl)⟩

/-- The normal form holds the anchors of the list, and the runs of what its other ranges hold. -/
theorem mem_normalize_iff : r ∈ normalize rs ↔
    r ∈ rs ∧ r.isAnchor = true ∨ IsRun (Covered rs) r ∧ r.isAnchor = false := by
  have hcovered : Covered (normalize rs) = Covered rs := funext fun _ => propext covered_normalize
  cases ha : r.isAnchor with
  | true => simp [mem_normalize_of_isAnchor ha]
  | false =>
    simp only [Bool.false_eq_true, and_false, false_or, and_true]
    constructor
    · intro hr
      rw [← hcovered]
      exact (isNormal_normalize rs).isRun hr ha
    · intro hr
      have hfirst : r.contains r.first = true := contains_iff.mpr ⟨Nat.le_refl _, r.first_le_last⟩
      obtain ⟨s, hs, hsa, hcs⟩ := covered_normalize.mpr (hr.inside _ hfirst)
      have hrun := (isNormal_normalize rs).isRun hs hsa
      rw [hcovered] at hrun
      rwa [hr.eq_of_contains hrun hfirst hcs]

/-! ## The normal form -/

theorem touches_self (r : Range) : r.touches r = true := by
  rw [touches]
  split
  · exact beq_self_eq_true r
  · rw [Bool.and_eq_true, decide_eq_true_eq]
    have := r.first_le_last
    omega

theorem Before.ne (h : r.Before s) : r ≠ s := by
  rintro rfl
  exact absurd (touches_self r) (by simp [h.2])

/-- Normal lists of the same ranges are one list. -/
theorem IsNormal.eq_of_mem_iff (hr : IsNormal rs) (hs : IsNormal ss)
    (h : ∀ r, r ∈ rs ↔ r ∈ ss) : rs = ss := by
  have hperm : rs.Perm ss :=
    (List.perm_ext_iff_of_nodup (hr.imp Before.ne) (hs.imp Before.ne)).mpr h
  have hantisymm : ∀ r s, r ∈ rs → s ∈ ss → r.Before s → s.Before r → r = s :=
    fun _ _ _ _ hrs hsr => le_antisymm hrs.1 hsr.1
  exact hperm.eq_of_pairwise hantisymm hr hs

theorem isAnchor_of_le (h : r.le s = true) (hr : r.isAnchor = true) : s.isAnchor = true := by
  rw [le_iff] at h
  rw [isAnchor_iff] at hr ⊢
  omega

/-- In a normal list the anchors come last. -/
theorem IsNormal.eq_append_filter (h : IsNormal rs) :
    rs = rs.filter (!·.isAnchor) ++ rs.filter isAnchor := by
  induction rs with
  | nil => rfl
  | cons r rs ih =>
    obtain ⟨hr, hrs⟩ := List.pairwise_cons.mp h
    cases ha : r.isAnchor with
    | false =>
      rw [List.filter_cons_of_pos (by simpa using ha), List.filter_cons_of_neg (by simpa using ha),
        List.cons_append, ← ih hrs]
    | true =>
      have hall : ∀ s ∈ r :: rs, s.isAnchor = true :=
        List.forall_mem_cons.mpr ⟨ha, fun s hs => isAnchor_of_le (hr s hs).1 ha⟩
      rw [List.filter_eq_nil_iff.mpr (by simpa using hall), List.filter_eq_self.mpr hall]
      rfl

/-- A value is missing after each range of the normal form that another one below the anchors
follows. -/
theorem exists_missing (hr : r ∈ normalize rs) (hrs : r.Before s) (hs : s.first ≤ maxCodepoint) :
    ∃ c, r.last < c ∧ c < s.first ∧ ∀ t ∈ rs, t.contains c = false := by
  have hgap : r.last + 1 < s.first := (before_iff.mp hrs).2.2.resolve_left (Nat.not_lt.mpr hs)
  have hle := r.first_le_last
  have ha : r.isAnchor = false := isAnchor_eq_false_iff.mpr (by omega)
  obtain ⟨hrun, _⟩ := (mem_normalize_iff.mp hr).resolve_left fun h => by simp [ha] at h
  refine ⟨r.last + 1, Nat.lt_succ_self _, hgap, fun t ht => ?_⟩
  by_contra hc
  rw [Bool.not_eq_false] at hc
  have hfirst := (contains_iff.mp hc).1
  exact hrun.above ⟨t, ht, isAnchor_eq_false_iff.mpr (by omega), hc⟩

/-- The normal form ascends and holds the same values. After each of its ranges that another one
below the anchors follows a value is missing. Its last ranges are the anchors of the list, each
once. Lists with the same anchors have the same normal form if their other ranges hold the same
values, and what is in normal form stays as it is. -/
theorem normalize_canonical (rs : List Range) :
    (normalize rs).Pairwise (fun r s => r.le s = true ∧ r ≠ s) ∧
      (∀ c, (∃ r ∈ normalize rs, r.contains c = true) ↔ ∃ r ∈ rs, r.contains c = true) ∧
      (∀ r s, [r, s] <:+: normalize rs → r.first ≤ maxCodepoint → s.first ≤ maxCodepoint →
        ∃ c, r.last < c ∧ c < s.first ∧ ∀ t ∈ rs, t.contains c = false) ∧
      (∃ below above, normalize rs = below ++ above ∧ (∀ r ∈ below, r.first ≤ maxCodepoint) ∧
        above.Nodup ∧ ∀ r, r ∈ above ↔ r ∈ rs ∧ maxCodepoint < r.first) ∧
      (∀ ss, (∀ r, r.isAnchor = true → (r ∈ rs ↔ r ∈ ss)) → (∀ c, Covered rs c ↔ Covered ss c) →
        normalize rs = normalize ss) ∧
      normalize (normalize rs) = normalize rs := by
  have hn := isNormal_normalize rs
  refine ⟨hn.imp fun h => ⟨h.1, h.ne⟩, fun c => contains_normalize, ?_, ?_, ?_,
    normalize_of_isNormal hn⟩
  · intro r s hrs _ hs
    have hpair : IsNormal [r, s] := hn.sublist hrs.sublist
    exact exists_missing (hrs.subset List.mem_cons_self) (List.rel_of_pairwise_cons hpair (by simp))
      hs
  · refine ⟨_, _, hn.eq_append_filter, ?_, (hn.imp Before.ne).filter _, ?_⟩
    · intro r hr
      exact isAnchor_eq_false_iff.mp (by simpa using (List.mem_filter.mp hr).2)
    · intro r
      rw [List.mem_filter, isAnchor_iff]
      refine and_congr_left fun h => mem_normalize_of_isAnchor (isAnchor_iff.mpr h)
  · intro ss hanchors hcovered
    have heq : Covered rs = Covered ss := funext fun c => propext (hcovered c)
    refine hn.eq_of_mem_iff (isNormal_normalize ss) fun r => ?_
    rw [mem_normalize_iff, mem_normalize_iff, heq, and_congr_left (hanchors r)]

/-- Neighbours and overlapping ranges in no order, among them one from code points up to an anchor,
and an anchor given twice. -/
def scattered : List Range :=
  [.single textEnd, ⟨0x6b, 0x6d, by decide⟩, ⟨0x10ffff, lineStart, by decide⟩, .single lineStart,
    ⟨0x68, 0x6a, by decide⟩, .single textEnd, ⟨0x10fff0, 0x10ffff, by decide⟩, .single 0x69]

/-- The runs of `scattered` and its anchors. -/
def gathered : List Range :=
  [⟨0x68, 0x6d, by decide⟩, ⟨0x10fff0, lineStart, by decide⟩, .single lineStart, .single textEnd]

theorem normalize_scattered :
    (∀ r, r.isAnchor = true → (r ∈ scattered ↔ r ∈ gathered)) ∧
      (∀ c, Covered scattered c ↔ Covered gathered c) ∧
      normalize scattered = gathered ∧
      ∃ c, 0x6d < c ∧ c < 0x10fff0 ∧ ∀ t ∈ scattered, t.contains c = false := by
  have hanchors : ∀ r, r.isAnchor = true → (r ∈ scattered ↔ r ∈ gathered) := by
    have hto : ∀ r ∈ scattered, r.isAnchor = true → r ∈ gathered := by decide
    have hfrom : ∀ r ∈ gathered, r.isAnchor = true → r ∈ scattered := by decide
    exact fun r ha => ⟨fun h => hto r h ha, fun h => hfrom r h ha⟩
  have hcovered : ∀ c, Covered scattered c ↔ Covered gathered c := by
    intro c
    simp only [Covered, scattered, gathered, List.mem_cons, List.not_mem_nil, or_false,
      exists_eq_or_imp, exists_eq_left, isAnchor_eq_false_iff, contains_iff, single_first,
      single_last, maxCodepoint, lineStart, textEnd]
    omega
  have hnormal : IsNormal gathered := by
    show gathered.Pairwise fun r s => r.le s = true ∧ r.touches s = false
    decide
  obtain ⟨_, _, hmissing, _, hsame, _⟩ := normalize_canonical scattered
  have heq : normalize scattered = gathered :=
    (hsame gathered hanchors hcovered).trans (normalize_of_isNormal hnormal)
  refine ⟨hanchors, hcovered, heq, ?_⟩
  rw [heq] at hmissing
  exact hmissing _ _ ⟨[], [.single lineStart, .single textEnd], rfl⟩ (by decide) (by decide)

end PositionAutomata.Range
