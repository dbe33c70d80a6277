import PositionAutomata.Proofs.Analysis.Awaiting

/-
  Alphabets as partitions.

  The letters ascend without overlap, so those that meet a range stand side by
  side (`filter_intersects_isInfix`). A range that holds no anchor besides other
  values is what these letters hold together (`contains_iff_exists_letter`), and
  a letter begins nowhere without need (`exists_contains_ne_before`). As a leaf
  has some of the ranges, it reads a letter as a whole or not at all.
-/

namespace PositionAutomata

instance : DecidablePred Range.IsSharp := fun r =>
  inferInstanceAs (Decidable (r.last ≤ maxCodepoint ∨ r.first = r.last))

namespace Alphabet

variable {rs ls : List Range} {r l : Range} {c : Nat}

/-! ## Letters that meet a range -/

/-- Of ascending ranges that end no earlier than `r` begins, the first ones meet `r`. -/
theorem filter_intersects_isPrefix (hls : ls.Pairwise fun x y => x.last < y.first)
    (hr : ∀ x ∈ ls, r.first ≤ x.last) : ls.filter (·.intersects r) <+: ls := by
  induction ls with
  | nil => exact List.nil_prefix
  | cons x ls ih =>
    obtain ⟨hx, htail⟩ := List.pairwise_cons.mp hls
    obtain ⟨hrx, hrest⟩ := List.forall_mem_cons.mp hr
    by_cases hmeet : x.first ≤ r.last
    · have hpos : x.intersects r = true := by simp [Range.intersects, hmeet, hrx]
      rw [List.filter_cons_of_pos (by simpa using hpos)]
      exact List.cons_prefix_cons.mpr ⟨rfl, ih htail hrest⟩
    · -- The range ends before `x` begins, and all others begin even later.
      have hnone : (x :: ls).filter (·.intersects r) = [] := by
        refine List.filter_eq_nil_iff.mpr (List.forall_mem_cons.mpr ⟨?_, fun y hy => ?_⟩)
        · simp [Range.intersects, hmeet]
        · have := hx y hy
          have := x.first_le_last
          simp only [Range.intersects, Bool.and_eq_true, decide_eq_true_eq]
          omega
      rw [hnone]
      exact List.nil_prefix

/-- Those of ascending ranges that meet one range follow each other. -/
theorem filter_intersects_isInfix (hls : ls.Pairwise fun x y => x.last < y.first) (r : Range) :
    ls.filter (·.intersects r) <:+: ls := by
  induction ls with
  | nil => exact List.nil_infix
  | cons x ls ih =>
    obtain ⟨hx, htail⟩ := List.pairwise_cons.mp hls
    by_cases hmeet : r.first ≤ x.last
    · refine (filter_intersects_isPrefix hls (List.forall_mem_cons.mpr ⟨hmeet, ?_⟩)).isInfix
      intro y hy
      have := hx y hy
      have := y.first_le_last
      omega
    · rw [List.filter_cons_of_neg (by simp [Range.intersects, hmeet])]
      exact (ih htail).trans (List.suffix_cons x ls).isInfix

/-! ## What letters hold -/

/-- The letters that end at code points hold exactly these. -/
theorem exists_letter_iff :
    (∃ l ∈ (ofRanges rs).letters, l.last ≤ maxCodepoint ∧ l.contains c = true) ↔
      c ≤ maxCodepoint := by
  constructor
  · intro h
    obtain ⟨l, _, hlast, hc⟩ := h
    exact Nat.le_trans (Range.contains_iff.mp hc).2 hlast
  · intro h
    obtain ⟨l, hl, ha, hc⟩ := exists_letter rs h
    have hna : ¬ maxCodepoint < l.first := by simpa [Range.isAnchor] using ha
    exact ⟨l, hl, (bounds_of_mem_letters hl).resolve_right fun hl => hna hl.1, hc⟩

theorem exists_letter_of_contains (hr : r ∈ rs) (hs : r.IsSharp) (hc : r.contains c = true) :
    ∃ l ∈ (ofRanges rs).letters, l.contains c = true := by
  by_cases hmax : c ≤ maxCodepoint
  · obtain ⟨l, hl, _, hlc⟩ := exists_letter rs hmax
    exact ⟨l, hl, hlc⟩
  · -- A sharp range with a value above the code points is that value.
    rw [Range.contains_iff] at hc
    have hfirst : r.first = c := by
      rcases hs with hs | hs <;> omega
    have ha : r.isAnchor = true := Range.isAnchor_iff.mpr (by omega)
    refine ⟨_, single_mem_letters hr ha, ?_⟩
    rw [Range.contains_single, hfirst]

/-- A range is the union of the letters that meet it. -/
theorem contains_iff_exists_letter (hr : r ∈ rs) (hs : r.IsSharp) :
    r.contains c = true ↔
      ∃ l ∈ (ofRanges rs).letters.filter (·.intersects r), l.contains c = true := by
  simp only [List.mem_filter]
  constructor
  · intro h
    obtain ⟨l, hl, hlc⟩ := exists_letter_of_contains hr hs h
    exact ⟨l, ⟨hl, Range.intersects_iff.mpr ⟨c, hlc, h⟩⟩, hlc⟩
  · intro h
    obtain ⟨l, ⟨hl, hmeet⟩, hlc⟩ := h
    exact contains_of_intersects hr hl hmeet hlc

/-- Some range tells the first code point of a letter from the one before. -/
theorem exists_contains_ne_before (hl : l ∈ (ofRanges rs).letters) (hpos : 0 < l.first)
    (hmax : l.first ≤ maxCodepoint) : ∃ r ∈ rs, r.contains l.first ≠ r.contains (l.first - 1) := by
  rcases letter_cases hl with hl | ⟨x, _, hx, rfl⟩
  · have hpoint : l.first ∈ (ofRanges rs).points := first_mem_of_mem_intervals hl
    simp only [ofRanges, SortedSet.mem_ofList, List.mem_cons, List.mem_flatMap] at hpoint
    obtain ⟨r, hr, hb⟩ := hpoint.resolve_left (Nat.ne_of_gt hpos)
    have hcases : l.first = r.first ∨ l.first = r.last + 1 := by
      rw [bounds] at hb
      split at hb
      · exact absurd hb (by simp)
      · split at hb
        · simpa using hb
        · exact .inl (by simpa using hb)
    have := r.first_le_last
    refine ⟨r, hr, fun heq => ?_⟩
    rw [Bool.eq_iff_iff, Range.contains_iff, Range.contains_iff] at heq
    omega
  · exact absurd hmax (Nat.not_le.mpr hx)

/-! ## Leaves and letters -/

/-- A leaf that reads a letter reads all of it, and one that does not reads nothing of it. -/
theorem reads_whole_or_nothing {t : Tree} {e : Expr NodeId} {lazy captures : Bool}
    {x : NodeId × Leaf} (hx : x ∈ e.leaves)
    (hl : l ∈ (Analysis.ofExpr t e lazy captures).alphabet.letters) :
    ((Occurrence.ofLeaf x.1 x.2).reads l = true ∧
        ∀ c, l.contains c = true → ∃ r ∈ x.2.ranges, r.contains c = true) ∨
      ((Occurrence.ofLeaf x.1 x.2).reads l = false ∧
        ∀ c, l.contains c = true → ∀ r ∈ x.2.ranges, r.contains c = false) := by
  obtain ⟨p, hp⟩ := Expr.exists_at hx
  cases hread : (Occurrence.ofLeaf x.1 x.2).reads l with
  | true =>
    refine .inl ⟨rfl, fun c hc => ?_⟩
    exact Analysis.partitioned_ofExpr.whole (Positions.get?_ofExpr.mpr ⟨x, hp, rfl⟩) hl hread hc
  | false =>
    refine .inr ⟨rfl, fun c hc r hr => ?_⟩
    rw [Bool.eq_false_iff]
    intro hrc
    have hmeet : (Occurrence.ofLeaf x.1 x.2).reads l = true :=
      List.any_eq_true.mpr ⟨r, hr, Range.intersects_iff.mpr ⟨c, hrc, hc⟩⟩
    rw [hread] at hmeet
    exact absurd hmeet (by simp)

/-- The letters of ranges that each end at a code point or are one value ascend without overlap.
They are intervals of code points, which hold all of these, and single values above; and each of the
ranges is what some letters that follow each other hold together. Each leaf of a tree reads all of a
letter or nothing of it. -/
theorem letters_partition_ranges :
    (∀ rs : List Range, (∀ r ∈ rs, r.IsSharp) →
      (ofRanges rs).letters.Pairwise (fun x y => x.last < y.first) ∧
        (∀ l ∈ (ofRanges rs).letters,
          l.last ≤ maxCodepoint ∨ (maxCodepoint < l.first ∧ l.first = l.last)) ∧
        (∀ c, (∃ l ∈ (ofRanges rs).letters, l.last ≤ maxCodepoint ∧ l.contains c = true) ↔
          c ≤ maxCodepoint) ∧
        ∀ r ∈ rs, ∃ ls, ls <:+: (ofRanges rs).letters ∧
          ∀ c, r.contains c = true ↔ ∃ l ∈ ls, l.contains c = true) ∧
      ∀ (t : Tree) (e : Expr NodeId), t.rootExpr = .ok e →
        ∃ a, Analysis.ofTree t = .ok a ∧ ∀ x ∈ e.leaves, ∀ l ∈ a.alphabet.letters,
          ((Occurrence.ofLeaf x.1 x.2).reads l = true ∧
              ∀ c, l.contains c = true → ∃ r ∈ x.2.ranges, r.contains c = true) ∨
            ((Occurrence.ofLeaf x.1 x.2).reads l = false ∧
              ∀ c, l.contains c = true → ∀ r ∈ x.2.ranges, r.contains c = false) := by
  refine ⟨fun rs hs => ⟨pairwise_letters rs, fun l => bounds_of_mem_letters,
    fun c => exists_letter_iff, fun r hr => ?_⟩, fun t e hroot => ?_⟩
  · exact ⟨_, filter_intersects_isInfix (pairwise_letters rs) r,
      fun c => contains_iff_exists_letter hr (hs r hr)⟩
  · refine ⟨Analysis.ofExpr t e true true, by rw [Analysis.ofTree, hroot]; rfl, ?_⟩
    exact fun x hx l hl => reads_whole_or_nothing hx hl

/-- The lower case letters. -/
def lowercase : Range := .upTo 0x61 0x7a

/-- A line start before a lower case letter or an `m`, which is one of them. -/
def lowercaseLine : Tree where
  nodes := #[.leaf (.codepoint lineStart), .leaf (.charset ⟨[.range lowercase], false⟩),
    .leaf (.codepoint 0x6d), .alternation 1 2, .concat 0 3]
  root := some 4

/-- What the root of `lowercaseLine` unfolds to. -/
def lowercaseLineExpr : Expr NodeId :=
  .concat 4 (.leaf 0 (.codepoint lineStart))
    (.alternation 3 (.leaf 1 (.charset ⟨[.range lowercase], false⟩)) (.leaf 2 (.codepoint 0x6d)))

theorem letters_partition_lowercaseLine :
    (∀ r ∈ [.single lineStart, lowercase, .single 0x6d], r.IsSharp) ∧
      (ofRanges [.single lineStart, lowercase, .single 0x6d]).letters =
        [.upTo 0 0x60, .upTo 0x61 0x6c, .single 0x6d, .upTo 0x6e 0x7a, .upTo 0x7b maxCodepoint,
          .single lineStart] ∧
      (∃ ls, ls <:+: (ofRanges [.single lineStart, lowercase, .single 0x6d]).letters ∧
        ∀ c, lowercase.contains c = true ↔ ∃ l ∈ ls, l.contains c = true) ∧
      lowercaseLine.rootExpr = .ok lowercaseLineExpr ∧
      ∃ a, Analysis.ofTree lowercaseLine = .ok a ∧
        ∀ x ∈ lowercaseLineExpr.leaves, ∀ l ∈ a.alphabet.letters,
          ((Occurrence.ofLeaf x.1 x.2).reads l = true ∧
              ∀ c, l.contains c = true → ∃ r ∈ x.2.ranges, r.contains c = true) ∨
            ((Occurrence.ofLeaf x.1 x.2).reads l = false ∧
              ∀ c, l.contains c = true → ∀ r ∈ x.2.ranges, r.contains c = false) := by
  have hsharp : ∀ r ∈ [.single lineStart, lowercase, .single 0x6d], r.IsSharp := by decide
  have hroot : lowercaseLine.rootExpr = .ok lowercaseLineExpr := by rfl
  obtain ⟨_, _, _, hunion⟩ := letters_partition_ranges.1 _ hsharp
  exact ⟨hsharp, by decide +kernel, hunion lowercase (by decide), hroot,
    letters_partition_ranges.2 _ _ hroot⟩

end Alphabet

end PositionAutomata
