import Mathlib.Data.List.Induction
import PositionAutomata.Proofs.Analysis.Tables
import PositionAutomata.Proofs.Automaton.Changes
import PositionAutomata.Proofs.Charset.Anchors
import PositionAutomata.Proofs.Charset.Letters
import PositionAutomata.Proofs.Expr.Local

/-
  The positions that are awaited while a text is read.

  `Analysis.Awaits` says which positions can be read next after a number of
  characters. The letters part the code points so that a leaf reads whole ones
  (`Analysis.Partitioned`), and unless a leaf mixes characters and anchors, what
  it reads is what its letters lead through (`Analysis.Lettered`). What leads to
  an awaited position is the beginning of a word whose leaves read the text
  (`word_of_awaits`), and all such words lead there (`awaits_of_word`), so a
  position at which words end is awaited exactly if a word ends with it
  (`awaits_last_iff`). The words are those that the expression allows by
  neighbours (`Expr.Guides`); if it counts nothing it spells them.
-/

namespace PositionAutomata

/-- The positions that can be read next after the first `i` characters of a text. -/
inductive Analysis.Awaits (a : Analysis) (text : List Char) : Nat → Position → Prop where
  | first {p : Position} : p ∈ (a.endsOf a.expr.tag).first → Awaits a text 0 p
  | next {i j : Nat} {p q : Position} {o : Occurrence} : Awaits a text i p →
      a.positions.get? p = some o → o.leaf.Reads text i j → q ∈ a.follow.after p →
      Awaits a text j q

/-- The letters ascend without overlap and hold all code points, and a leaf reads all of a letter
or nothing of it. -/
structure Analysis.Partitioned (a : Analysis) : Prop where
  disjoint : a.alphabet.letters.Pairwise fun x y => x.last < y.first
  covers : ∀ {c}, c ≤ maxCodepoint →
    ∃ l ∈ a.alphabet.letters, l.isAnchor = false ∧ l.contains c = true
  whole : ∀ {p o l c}, a.positions.get? p = some o → l ∈ a.alphabet.letters →
    o.reads l = true → l.contains c = true → ∃ r ∈ o.ranges, r.contains c = true

/-- What the leaf at a position reads is what the letters that it reads lead through. -/
structure Analysis.Lettered (a : Analysis) : Prop extends a.Partitioned where
  reads : ∀ {p o l text i j}, a.positions.get? p = some o → l ∈ a.alphabet.letters →
    o.reads l = true → l.Takes text i j → o.leaf.Reads text i j
  letter : ∀ {p o text i j}, a.positions.get? p = some o → o.leaf.Reads text i j →
    ∃ l ∈ a.alphabet.letters, l.Takes text i j ∧ o.reads l = true

namespace Analysis

variable {t : Tree} {e : Expr NodeId} {lazy captures : Bool} {text : List Char} {i j : Nat}
  {p q : Position}

/-! ## Letters and leaves -/

theorem ranges_mem_alphabet {o : Occurrence} {r : Range}
    (ho : (ofExpr t e lazy captures).positions.get? p = some o) (hr : r ∈ o.ranges) :
    r ∈ (ofExpr t e lazy captures).positions.occurrences.toList.flatMap Occurrence.ranges := by
  obtain ⟨_, h⟩ := Positions.valueAt?_eq_some_iff.mp ho
  exact List.mem_flatMap.mpr ⟨o, Array.mem_toList_iff.mpr (Array.mem_of_getElem? h), hr⟩

theorem ranges_of_get? {o : Occurrence}
    (ho : (ofExpr t e lazy captures).positions.get? p = some o) : o.ranges = o.leaf.ranges := by
  obtain ⟨x, _, rfl⟩ := Positions.get?_ofExpr.mp ho
  rfl

/-- An anchor that a leaf holds at is a letter which the leaf reads. -/
theorem anchor_letter {o : Occurrence} {r : Range} {x : Nat}
    (ho : (ofExpr t e lazy captures).positions.get? p = some o) (hs : o.leaf.IsSharp)
    (hr : r ∈ o.leaf.ranges) (hx : x = lineStart ∨ x = textEnd) (hc : r.contains x = true) :
    .single x ∈ (ofExpr t e lazy captures).alphabet.letters ∧ o.reads (.single x) = true := by
  -- A sharp range with an anchor is that anchor alone.
  have hone : r.first = r.last := hs r hr (by rcases hx with rfl | rfl <;> simp [hc])
  have hrx : r.first = x := by
    rw [Range.contains_iff] at hc
    omega
  have hr : r ∈ o.ranges := by rwa [ranges_of_get? ho]
  refine ⟨?_, List.any_eq_true.mpr ⟨r, hr, ?_⟩⟩
  · rw [← hrx]
    refine Alphabet.single_mem_letters (ranges_mem_alphabet ho hr) (Range.isAnchor_iff.mpr ?_)
    rw [hrx]
    rcases hx with rfl | rfl <;> decide
  · exact Range.intersects_iff.mpr ⟨x, hc, Range.contains_single.mpr rfl⟩

/-- The letters are made from the ranges of the leaves, whatever values these hold. -/
theorem partitioned_ofExpr : (ofExpr t e lazy captures).Partitioned where
  disjoint := Alphabet.pairwise_letters _
  covers := Alphabet.exists_letter _
  whole {p o l c} ho hl hr hc := by
    obtain ⟨r, hro, hrl⟩ := List.any_eq_true.mp hr
    obtain ⟨v, hrv, hlv⟩ := Range.intersects_iff.mp hrl
    -- The range and the letter share a value, so the range holds all that the letter does.
    exact ⟨r, hro, Alphabet.contains_of_intersects (ranges_mem_alphabet ho hro) hl
      (Range.intersects_iff.mpr ⟨v, hlv, hrv⟩) hc⟩

theorem lettered_ofExpr (hs : e.AllLeaves Leaf.IsSharp) :
    (ofExpr t e lazy captures).Lettered where
  toPartitioned := partitioned_ofExpr
  reads {p o l text i j} ho hl hr htake := by
    have hwhole : ∀ c, l.contains c = true → ∃ r ∈ o.leaf.ranges, r.contains c = true := by
      rw [← ranges_of_get? ho]
      exact fun c hc => partitioned_ofExpr.whole ho hl hr hc
    rcases htake with ⟨hholds, rfl⟩ | ⟨_, rfl, c, hc, hlc⟩
    · simp only [Range.holdsAt, Bool.or_eq_true, Bool.and_eq_true, decide_eq_true_eq,
        List.getElem?_toArray, List.size_toArray] at hholds
      rcases hholds with ⟨hls, hstart⟩ | ⟨hte, rfl⟩
      · obtain ⟨r, hr, hrc⟩ := hwhole _ hls
        exact .lineStart hstart hr hrc
      · obtain ⟨r, hr, hrc⟩ := hwhole _ hte
        exact .textEnd hr hrc
    · obtain ⟨r, hr, hrc⟩ := hwhole _ hlc
      exact .char hc hr hrc
  letter {p o text i j} ho hread := by
    have hsharp : o.leaf.IsSharp := by
      obtain ⟨x, hx, rfl⟩ := Positions.get?_ofExpr.mp ho
      exact Expr.allLeaves_iff.mp hs x hx.mem
    cases hread with
    | @char _ c r hc hr hcr =>
      obtain ⟨l, hl, hna, hlc⟩ := partitioned_ofExpr.covers (le_maxCodepoint_of_char c)
      refine ⟨l, hl, .inr ⟨hna, rfl, c, hc, hlc⟩, List.any_eq_true.mpr ⟨r, ?_, ?_⟩⟩
      · rwa [ranges_of_get? ho]
      · exact Range.intersects_iff.mpr ⟨c.toNat, hcr, hlc⟩
    | lineStart hstart hr ha =>
      obtain ⟨hl, hor⟩ := anchor_letter ho hsharp hr (.inl rfl) ha
      refine ⟨_, hl, .inl ⟨?_, rfl⟩, hor⟩
      simp [Range.holdsAt, Range.contains_single, hstart]
    | textEnd hr ha =>
      obtain ⟨hl, hor⟩ := anchor_letter ho hsharp hr (.inr rfl) ha
      refine ⟨_, hl, .inl ⟨?_, rfl⟩, hor⟩
      simp [Range.holdsAt, Range.contains_single]

/-! ## Awaited positions and words -/

section

variable {root : NodeId} (hroot : t.expr root = .ok e) (hnd : (e.leaves.map Prod.fst).Nodup)
  (hb : ∀ y ∈ e.leaves, y.1 < t.size)

include hroot hnd hb

variable {s : List (NodeId × Leaf) → Prop} {x : NodeId × Leaf}

/-- What leads to an awaited position and goes on as the expression allows is a word. -/
theorem word_of_awaits (hs : e.Guides s) (h : (ofExpr t e lazy captures).Awaits text i p)
    (hx : e.At p x) {v : List (NodeId × Leaf)} (hv : e.Continues x v) :
    ∃ u, Consumes text u 0 i ∧ s (u ++ x :: v) := by
  -- By induction on how the position came to be awaited; the word goes on from it as it may.
  induction h generalizing x v with
  | first hp =>
    obtain ⟨y, hy, hpy⟩ := (mem_first_iff hroot hnd hb).mp hp
    obtain rfl := hx.unique hpy
    exact ⟨[], rfl, hs.word hy hv⟩
  | @next i j p q o _ ho hread hq ih =>
    obtain ⟨y, z, hyz, hy, hz⟩ := (mem_after_iff hnd hb).mp hq
    obtain rfl := hx.unique hz
    obtain ⟨y', hy', rfl⟩ := Positions.get?_ofExpr.mp ho
    obtain rfl := hy.unique hy'
    obtain ⟨u, hu, hs⟩ := ih hy (v := x :: v) ⟨hyz, hv⟩
    refine ⟨u ++ [y], consumes_append.mpr ⟨i, hu, j, hread, rfl⟩, ?_⟩
    rwa [List.append_assoc]

/-- The next leaf of a word whose leaves before it read the text is awaited, if words begin and go
on as the expression allows. -/
theorem awaits_of_word (hfirst : ∀ {x u}, s (x :: u) → e.First x)
    (hfollows : ∀ {x y u v}, s (u ++ x :: y :: v) → e.Follows x y) {u v : List (NodeId × Leaf)}
    (h : s (u ++ x :: v)) (hc : Consumes text u 0 i) (hx : e.At p x) :
    (ofExpr t e lazy captures).Awaits text i p := by
  -- The last leaf that was read is the one that the awaited position follows.
  induction u using List.reverseRecOn generalizing x v i p with
  | nil =>
    obtain rfl : 0 = i := hc
    exact .first ((mem_first_iff hroot hnd hb).mpr ⟨x, hfirst h, hx⟩)
  | append_singleton u y ih =>
    rw [List.append_assoc] at h
    obtain ⟨k, hk, j, hread, rfl⟩ := consumes_append.mp hc
    have hyx : e.Follows y x := hfollows h
    obtain ⟨r, hy⟩ := Expr.exists_at (Expr.mem_leaves_of_follows hyx).1
    exact .next (ih h hk hy) (Positions.get?_ofExpr.mpr ⟨y, hy, rfl⟩) hread
      ((mem_after_iff hnd hb).mpr ⟨y, x, hyx, hy, hx⟩)

theorem spells_of_awaits (hu : e.Unrolled) (h : (ofExpr t e lazy captures).Awaits text i p)
    (hx : e.At p x) {v : List (NodeId × Leaf)} (hv : e.Continues x v) :
    ∃ u, Consumes text u 0 i ∧ e.Spells (u ++ x :: v) :=
  word_of_awaits hroot hnd hb (Expr.guides_spells hu hnd.of_map) h hx hv

theorem awaits_of_spells {u v : List (NodeId × Leaf)} (h : e.Spells (u ++ x :: v))
    (hc : Consumes text u 0 i) (hx : e.At p x) : (ofExpr t e lazy captures).Awaits text i p :=
  awaits_of_word hroot hnd hb Expr.first_of_spells Expr.follows_of_spells h hc hx

/-- A position that ends words is awaited exactly if the text can be read by a word up to it. -/
theorem awaits_last_iff (hs : e.Guides s) (hx : e.At p x) (hl : e.Last x) :
    (ofExpr t e lazy captures).Awaits text i p ↔ ∃ u, Consumes text u 0 i ∧ s (u ++ [x]) := by
  constructor
  · exact fun h => word_of_awaits hroot hnd hb hs h hx (v := []) hl
  · intro h
    obtain ⟨u, hc, hw⟩ := h
    exact awaits_of_word hroot hnd hb hs.first hs.follows hw hc hx

end

end Analysis

end PositionAutomata
