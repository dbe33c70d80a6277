import PositionAutomata.Proofs.Charset.Canonical
import PositionAutomata.Tree.Node

/-
  What the complement of a list of ranges is.

  The complement is one scan over the normal form. From some place on it holds the
  code points that no range holds (`covered_complementFrom`), in ranges that ascend
  and leave a gap between each two (`ascends_complementFrom`). A normal list is told
  by what it holds. So a complement consists of the runs of the code points that are
  missing (`mem_complement_iff`), and the complement of a complement is the normal
  form again (`complement_complement`). Charsets resolve their marks by complements
  alone, that of a negated class and that of all entries together: a code point is in
  the ranges of a charset if what the entries say of it differs from what the mark of
  the charset says (`complement_resolves_negation`).
-/

namespace PositionAutomata

namespace Range

variable {rs ss : List Range} {r : Range} {c next : Nat}

/-! ## Ranges with gaps between them -/

/-- Ranges that start at code points, from `next` on, each with a gap before those behind it. -/
structure Ascends (next : Nat) (rs : List Range) : Prop where
  le_first : ∀ r ∈ rs, next ≤ r.first
  first_le : ∀ r ∈ rs, r.first ≤ maxCodepoint
  gaps : rs.Pairwise fun r s => r.last + 1 < s.first

theorem ascends_nil (next : Nat) : Ascends next [] :=
  ⟨fun _ h => absurd h List.not_mem_nil, fun _ h => absurd h List.not_mem_nil, .nil⟩

theorem Ascends.tail (h : Ascends next (r :: rs)) : Ascends (r.last + 1) rs where
  le_first _ hs := Nat.le_of_lt (List.rel_of_pairwise_cons h.gaps hs)
  first_le s hs := h.first_le s (List.mem_cons_of_mem r hs)
  gaps := h.gaps.of_cons

theorem Ascends.isNormal (h : Ascends next rs) : IsNormal rs := by
  refine h.gaps.imp fun {r s} hgap => before_iff.mpr ?_
  have hle := r.first_le_last
  refine ⟨le_iff.mpr (.inl (by omega)), ?_, .inr hgap⟩
  rintro rfl
  omega

theorem IsNormal.ascends (h : IsNormal rs) (hrs : ∀ r ∈ rs, r.first ≤ maxCodepoint) :
    Ascends 0 rs where
  le_first _ _ := Nat.zero_le _
  first_le := hrs
  gaps := h.imp_of_mem fun _ hs hbefore =>
    (before_iff.mp hbefore).2.2.resolve_left (Nat.not_lt.mpr (hrs _ hs))

/-- Ranges that start behind another one hold nothing up to its end. -/
theorem Ascends.not_covered (h : Ascends next rs) (hc : c < next) : ¬ Covered rs c := by
  rintro ⟨s, hs, _, hcs⟩
  have hfirst := h.le_first s hs
  rw [contains_iff] at hcs
  omega

/-- A range is in the list exactly if it is a run of what the list holds. -/
theorem Ascends.mem_iff (h : Ascends next rs) : r ∈ rs ↔ IsRun (Covered rs) r := by
  constructor
  · exact fun hr => h.isNormal.isRun hr (isAnchor_eq_false_iff.mpr (h.first_le r hr))
  · intro hrun
    have hfirst : r.contains r.first = true := contains_iff.mpr ⟨Nat.le_refl _, r.first_le_last⟩
    obtain ⟨s, hs, ha, hc⟩ := hrun.inside _ hfirst
    rwa [hrun.eq_of_contains (h.isNormal.isRun hs ha) hfirst hc]

/-- Lists that hold the same values are one list. -/
theorem Ascends.eq_of_covered (hr : Ascends next rs) (hs : Ascends next ss)
    (h : ∀ c, Covered rs c ↔ Covered ss c) : rs = ss := by
  have heq : Covered rs = Covered ss := funext fun c => propext (h c)
  exact hr.isNormal.eq_of_mem_iff hs.isNormal fun r => by rw [hr.mem_iff, hs.mem_iff, heq]

/-! ## The scan -/

theorem covered_append : Covered (rs ++ ss) c ↔ Covered rs c ∨ Covered ss c := by
  simp only [Covered, List.mem_append, or_and_right, exists_or]

theorem covered_upTo {first last : Nat} (hle : first ≤ last) (hfirst : first ≤ maxCodepoint) :
    Covered [upTo first last] c ↔ first ≤ c ∧ c ≤ last := by
  have hcode : (upTo first last).isAnchor = false := isAnchor_eq_false_iff.mpr hfirst
  have hlast : (upTo first last).last = last := Nat.max_eq_right hle
  simp only [Covered, List.mem_singleton, exists_eq_left, hcode, true_and, contains_iff, hlast]
  rfl

/-- What is missing from `next` on before a range. -/
def gap (next : Nat) (r : Range) : List Range :=
  if next < r.first then [upTo next (r.first - 1)] else []

theorem covered_gap (hr : r.first ≤ maxCodepoint) :
    Covered (gap next r) c ↔ next ≤ c ∧ c < r.first := by
  rw [gap]
  split
  next hlt =>
    rw [covered_upTo (by omega) (by omega)]
    omega
  next hle =>
    refine iff_of_false ?_ (by omega)
    rintro ⟨s, hs, _⟩
    exact absurd hs List.not_mem_nil

theorem ascends_gap_append (hn : next ≤ r.first) (hr : r.first ≤ maxCodepoint)
    (h : Ascends (r.last + 1) rs) : Ascends next (gap next r ++ rs) := by
  have hle := r.first_le_last
  have hrest : ∀ s ∈ rs, r.last < s.first := h.le_first
  rw [gap]
  split
  next hlt =>
    refine ⟨List.forall_mem_cons.mpr ⟨Nat.le_refl _, fun s hs => ?_⟩,
      List.forall_mem_cons.mpr ⟨Nat.le_trans hn hr, h.first_le⟩,
      List.pairwise_cons.mpr ⟨fun s hs => ?_, h.gaps⟩⟩
    · have hs := hrest s hs
      omega
    · have hs := hrest s hs
      simp only [upTo]
      omega
  next => exact ⟨fun s hs => Nat.le_trans (by omega) (h.le_first s hs), h.first_le, h.gaps⟩

theorem complementFrom_cons (h : Ascends next (r :: rs)) :
    complementFrom next (r :: rs) =
      gap next r ++ if r.last < maxCodepoint then complementFrom (r.last + 1) rs else [] := by
  have hfirst := h.le_first r List.mem_cons_self
  have hle := r.first_le_last
  rw [complementFrom, gap, Nat.max_eq_right (by omega)]

theorem ascends_complementFrom (hn : next ≤ maxCodepoint) (h : Ascends next rs) :
    Ascends next (complementFrom next rs) := by
  induction rs generalizing next with
  | nil =>
    exact ⟨List.forall_mem_singleton.mpr (Nat.le_refl _), List.forall_mem_singleton.mpr hn,
      List.pairwise_singleton _ _⟩
  | cons r rs ih =>
    have hr := List.mem_cons_self (a := r) (l := rs)
    rw [complementFrom_cons h]
    refine ascends_gap_append (h.le_first r hr) (h.first_le r hr) ?_
    split
    next hlast => exact ih hlast h.tail
    next => exact ascends_nil _

/-- The scan holds the code points from `next` on that no range of the list holds. -/
theorem covered_complementFrom (hn : next ≤ maxCodepoint) (h : Ascends next rs) :
    Covered (complementFrom next rs) c ↔ next ≤ c ∧ c ≤ maxCodepoint ∧ ¬ Covered rs c := by
  induction rs generalizing next with
  | nil =>
    rw [complementFrom, covered_upTo hn hn]
    simp [Covered]
  | cons r rs ih =>
    have hr := List.mem_cons_self (a := r) (l := rs)
    have hfirst := h.le_first r hr
    have hcode := h.first_le r hr
    have hle := r.first_le_last
    have hrest : Covered (if r.last < maxCodepoint then complementFrom (r.last + 1) rs else []) c ↔
        r.last < c ∧ c ≤ maxCodepoint ∧ ¬ Covered rs c := by
      split
      next hlast => exact ih hlast h.tail
      next hlast =>
        refine iff_of_false ?_ (by omega)
        rintro ⟨s, hs, _⟩
        exact absurd hs List.not_mem_nil
    rw [complementFrom_cons h, covered_append, covered_gap hcode, hrest, covered_cons,
      isAnchor_eq_false_iff, contains_iff]
    by_cases hc : Covered rs c
    · have hbehind : r.last < c := Nat.lt_of_not_le fun hlast =>
        h.tail.not_covered (Nat.lt_succ_of_le hlast) hc
      simp only [hc, not_true_eq_false, or_true, and_false, or_false, iff_false, not_and]
      omega
    · simp only [hc, not_false_eq_true, or_false, and_true]
      omega

/-! ## The complement -/

theorem covered_filter_codepoints : Covered (rs.filter (!·.isAnchor)) c ↔ Covered rs c := by
  simp only [Covered, List.mem_filter, Bool.not_eq_true', and_assoc, and_self_left]

theorem ascends_normalize (h : ∀ r ∈ rs, r.first ≤ maxCodepoint) : Ascends 0 (normalize rs) :=
  (isNormal_normalize rs).ascends
    (mem_normalize (fun _ _ hr _ _ => Nat.le_trans (Nat.min_le_left _ _) hr) h)

theorem ascends_normalize_codepoints (rs : List Range) :
    Ascends 0 (normalize (rs.filter (!·.isAnchor))) :=
  ascends_normalize fun _ hr =>
    isAnchor_eq_false_iff.mp (by simpa using (List.mem_filter.mp hr).2)

theorem ascends_complement (rs : List Range) : Ascends 0 (complement rs) :=
  ascends_complementFrom (Nat.zero_le _) (ascends_normalize_codepoints rs)

/-- The complement holds the code points that no range of the list holds. -/
theorem covered_complement : Covered (complement rs) c ↔ c ≤ maxCodepoint ∧ ¬ Covered rs c := by
  rw [complement, covered_complementFrom (Nat.zero_le _) (ascends_normalize_codepoints rs),
    covered_normalize, covered_filter_codepoints, and_iff_right (Nat.zero_le c)]

/-- Where all values are code points, the complement of the complement is the normal form. -/
theorem complement_complement (h : ∀ r ∈ rs, r.last ≤ maxCodepoint) :
    complement (complement rs) = normalize rs := by
  have hle : ∀ {c}, Covered rs c → c ≤ maxCodepoint := by
    rintro c ⟨r, hr, _, hc⟩
    exact Nat.le_trans (contains_iff.mp hc).2 (h r hr)
  have hnormal := ascends_normalize fun r hr => Nat.le_trans r.first_le_last (h r hr)
  refine (ascends_complement _).eq_of_covered hnormal fun c => ?_
  rw [covered_complement, covered_complement, covered_normalize]
  constructor
  · rintro ⟨hc, hnot⟩
    by_contra hcov
    exact hnot ⟨hc, hcov⟩
  · exact fun hcov => ⟨hle hcov, fun hnot => hnot.2 hcov⟩

/-! ## Code points in lists -/

theorem covered_iff_any (hc : c ≤ maxCodepoint) :
    Covered rs c ↔ rs.any (·.contains c) = true := by
  rw [List.any_eq_true]
  refine exists_congr fun r => and_congr_right fun _ => and_iff_right_of_imp fun hr => ?_
  exact isAnchor_eq_false_iff.mpr (Nat.le_trans (contains_iff.mp hr).1 hc)

theorem any_normalize : (normalize rs).any (·.contains c) = rs.any (·.contains c) := by
  rw [Bool.eq_iff_iff, List.any_eq_true, List.any_eq_true]
  exact contains_normalize

theorem any_complement (hc : c ≤ maxCodepoint) :
    (complement rs).any (·.contains c) = !rs.any (·.contains c) := by
  rw [Bool.eq_iff_iff, ← covered_iff_any hc, covered_complement, and_iff_right hc,
    covered_iff_any hc, Bool.not_eq_true, Bool.not_eq_true']

end Range

/-! ## Charsets -/

/-- Whether the entry stands for a value: a class does for its values, a negated one for the
others. -/
def Entry.contains : Entry → Nat → Bool
  | char a, c => c == a
  | range r, c => r.contains c
  | named cls negated, c => cls.ranges.any (·.contains c) != negated

theorem Entry.any_ranges {c : Nat} (hc : c ≤ maxCodepoint) (x : Entry) :
    x.ranges.any (·.contains c) = x.contains c := by
  match x with
  | char a =>
    rw [ranges, List.any_cons, List.any_nil, Bool.or_false, Bool.eq_iff_iff, Range.contains_single]
    exact beq_iff_eq.symm
  | range r => exact Bool.or_false _
  | named cls false => exact (Bool.bne_false _).symm
  | named cls true => exact (Range.any_complement hc).trans (Bool.bne_true _).symm

theorem Charset.any_ranges {c : Nat} (hc : c ≤ maxCodepoint) (s : Charset) :
    s.ranges.any (·.contains c) = (s.entries.any (·.contains c) != s.negated) := by
  have hentries : (s.entries.flatMap Entry.ranges).any (·.contains c) =
      s.entries.any (·.contains c) := by
    rw [List.any_flatMap]
    congr 1
    exact funext (Entry.any_ranges hc)
  rw [ranges]
  cases s.negated with
  | false => exact (Range.any_normalize.trans hentries).trans (Bool.bne_false _).symm
  | true =>
    rw [Bool.bne_true, ← hentries]
    exact Range.any_complement hc

/-- The complement of a list of ranges holds just the code points that no range of the list holds
which is no anchor. Its ranges are ranges of code points, ascend and leave a gap between each two,
and where the list has code points alone, the complement of its complement is its normal form. So a
code point is in the ranges of a charset exactly if what its entries say of it and the mark of the
charset differ. -/
theorem Range.complement_resolves_negation (rs : List Range) (s : Charset) :
    (∀ c ≤ maxCodepoint, (∃ r ∈ complement rs, r.contains c = true) ↔
        ¬ ∃ r ∈ rs, r.isAnchor = false ∧ r.contains c = true) ∧
      (∀ r ∈ complement rs, r.last ≤ maxCodepoint) ∧
      (complement rs).Pairwise (fun r r' => r.last + 1 < r'.first) ∧
      ((∀ r ∈ rs, r.last ≤ maxCodepoint) → complement (complement rs) = normalize rs) ∧
      ∀ c ≤ maxCodepoint, (Node.leaf (.charset s)).ranges.any (·.contains c) =
        (s.entries.any (·.contains c) != s.negated) := by
  refine ⟨fun c hc => ?_, fun r => le_of_mem_complement, (ascends_complement rs).gaps,
    complement_complement, fun c hc => s.any_ranges hc⟩
  have hheld : Covered (complement rs) c ↔ c ≤ maxCodepoint ∧ ¬ Covered rs c := covered_complement
  rwa [and_iff_right hc, covered_iff_any hc, List.any_eq_true] at hheld

/-- Ranges of code points in no order, some of which overlap or touch, up to the greatest one. -/
def Range.overlapping : List Range :=
  [⟨0x76, 0x78, by decide⟩, ⟨0x72, 0x74, by decide⟩, .single maxCodepoint, ⟨0x71, 0x73, by decide⟩,
    ⟨0x00, 0x09, by decide⟩, .single 0x0a]

/-- Some characters, the line start and whatever is no part of a word, all this negated. -/
def Charset.wordLetters : Charset :=
  ⟨[.char 0xe9, .range ⟨0x0e, 0x1f, by decide⟩, .named .word true, .char lineStart], true⟩

theorem Range.complement_overlapping :
    (∀ r ∈ overlapping, r.last ≤ maxCodepoint) ∧ 0x75 ≤ maxCodepoint ∧
      complement (complement overlapping) = normalize overlapping ∧
      (∃ r ∈ complement overlapping, r.contains 0x75 = true) ∧
      (¬ ∃ r ∈ complement overlapping, r.contains 0x73 = true) ∧
      (Node.leaf (.charset .wordLetters)).ranges.any (·.contains 0x61) = true ∧
      (Node.leaf (.charset .wordLetters)).ranges.any (·.contains 0x2d) = false := by
  have hcode : ∀ r ∈ overlapping, r.last ≤ maxCodepoint := by decide
  obtain ⟨hheld, _, _, htwice, hcharset⟩ := complement_resolves_negation overlapping .wordLetters
  refine ⟨hcode, by decide, htwice hcode, (hheld 0x75 (by decide)).mpr (by decide), ?_, ?_, ?_⟩
  · rw [hheld 0x73 (by decide)]
    decide
  · rw [hcharset 0x61 (by decide)]
    rfl
  · rw [hcharset 0x2d (by decide)]
    rfl

end PositionAutomata
