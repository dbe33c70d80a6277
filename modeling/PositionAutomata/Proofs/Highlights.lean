import Mathlib
import PositionAutomata.Diagnostic
import PositionAutomata.Proofs.Document.Slices

/-
  The region of the highlights.

  Where highlights do not overlap, one whose last character starts later also stops
  later, so appending takes over the end of a highlight just when its last character
  starts later (`append_end`). The region of a diagnostic thus goes from the start of
  the highlight that was added first to the end of the first one whose last character
  starts last (`exists_span_eq`). It covers all highlights just if none starts before
  that start and none stops after that end (`covered_iff`), and only a highlight whose
  last character is at the same place can stop after it (`FirstFurthest.stop_le_iff`).
-/

namespace PositionAutomata

namespace Place

variable {p q : Place}

instance (p q : Place) : Decidable (p ≤ q) := inferInstanceAs (Decidable (q.before p = false))

instance (p q : Place) : Decidable (p < q) := inferInstanceAs (Decidable (p.before q = true))

theorem not_lt : ¬p < q ↔ q ≤ p := Bool.not_eq_true _ ▸ Iff.rfl

theorem eq_of_le_of_le (h : p ≤ q) (h' : q ≤ p) : p = q := by
  rw [le_iff] at h h'
  obtain ⟨line, column⟩ := p
  obtain ⟨line', column'⟩ := q
  rw [mk.injEq]
  simp only at h h'
  omega

end Place

namespace Span

/-- The span is not empty, and its last character starts inside it. -/
def Proper (s : Span) : Prop := s.start ≤ s.last ∧ s.last ≤ s.stop ∧ s.start < s.stop

/-- One of the spans stops before the other one starts. -/
def Apart (s t : Span) : Prop := s.stop ≤ t.start ∨ t.stop ≤ s.start

/-- The other span starts and stops inside the span. -/
def Covers (s t : Span) : Prop := s.start ≤ t.start ∧ t.stop ≤ s.stop

instance : DecidablePred Proper := fun _ => inferInstanceAs (Decidable (_ ∧ _ ∧ _))

instance : DecidableRel Apart := fun _ _ => inferInstanceAs (Decidable (_ ∨ _))

instance : DecidableRel Covers := fun _ _ => inferInstanceAs (Decidable (_ ∧ _))

/-- Spans that are not empty and do not overlap. -/
def Separate (spans : List Span) : Prop := (∀ s ∈ spans, s.Proper) ∧ spans.Pairwise Apart

instance : DecidablePred Separate := fun _ => inferInstanceAs (Decidable (_ ∧ _))

/-- The span is the first of those whose last characters start last. -/
def FirstFurthest (spans : List Span) (s : Span) : Prop :=
  ∃ before after, spans = before ++ s :: after ∧
    (∀ t ∈ before, t.last < s.last) ∧ ∀ t ∈ after, t.last ≤ s.last

variable {s t : Span} {spans : List Span}

/-! ## Spans that do not overlap -/

instance : Std.Symm Apart := ⟨fun _ _ => Or.symm⟩

theorem Separate.perm {spans' : List Span} (h : Separate spans) (hp : spans'.Perm spans) :
    Separate spans' :=
  ⟨fun s hs => h.1 s (hp.mem_iff.mp hs), (hp.pairwise_iff Or.symm).mpr h.2⟩

theorem Separate.sublist {spans' : List Span} (h : Separate spans) (hsub : spans'.Sublist spans) :
    Separate spans' :=
  ⟨fun s hs => h.1 s (hsub.subset hs), h.2.sublist hsub⟩

theorem Separate.apart (h : Separate spans) (hs : s ∈ spans) (ht : t ∈ spans) (hne : s ≠ t) :
    s.Apart t :=
  h.2.forall hs ht hne

/-- Of spans whose last characters take up some room, no two have them at one place. -/
theorem Separate.eq_of_last_eq (h : Separate spans) (hroom : ∀ s ∈ spans, s.last < s.stop)
    (hs : s ∈ spans) (ht : t ∈ spans) (heq : s.last = t.last) : s = t := by
  by_contra hne
  rcases h.apart hs ht hne with hle | hle
  · have hback : s.stop ≤ s.last := heq ▸ hle.trans (h.1 t ht).1
    exact ((hroom s hs).trans_le hback).false
  · have hback : t.stop ≤ t.last := heq ▸ hle.trans (h.1 s hs).1
    exact ((hroom t ht).trans_le hback).false

theorem Separate.eq_of_start_eq (h : Separate spans) (hs : s ∈ spans) (ht : t ∈ spans)
    (heq : s.start = t.start) : s = t := by
  by_contra hne
  rcases h.apart hs ht hne with hle | hle
  · exact ((h.1 s hs).2.2.trans_le (heq ▸ hle)).false
  · exact ((h.1 t ht).2.2.trans_le (heq ▸ hle)).false

/-- Of two spans that do not overlap, the one whose last character starts later stops later. -/
theorem Separate.stop_lt (h : Separate spans) (hs : s ∈ spans) (ht : t ∈ spans)
    (hlt : s.last < t.last) : s.stop < t.stop := by
  have hne : s ≠ t := by
    rintro rfl
    exact hlt.false
  rcases h.apart hs ht hne with hle | hle
  · exact hle.trans_lt (h.1 t ht).2.2
  · have hback : t.last ≤ s.last := ((h.1 t ht).2.1.trans hle).trans (h.1 s hs).1
    exact absurd (hlt.trans_le hback) (lt_irrefl _)

/-- Appending a highlight takes over its end if its last character starts later. -/
theorem append_end (h : Separate spans) (hs : s ∈ spans) (ht : t ∈ spans) (p : Place) :
    (Span.mk p s.last s.stop).append t =
      if s.last < t.last then ⟨p, t.last, t.stop⟩ else ⟨p, s.last, s.stop⟩ := by
  rw [append]
  by_cases hlt : s.last < t.last
  · have hstop := h.stop_lt hs ht hlt
    rw [if_pos hlt, if_pos (Bool.and_eq_true_iff.mpr ⟨hlt, hstop⟩)]
  · rw [if_neg hlt, if_neg fun hand => hlt (Bool.and_eq_true_iff.mp hand).1]

/-! ## The first span that goes furthest -/

theorem FirstFurthest.mem (h : FirstFurthest spans s) : s ∈ spans := by
  obtain ⟨before, after, rfl, _, _⟩ := h
  simp

theorem FirstFurthest.last_le (h : FirstFurthest spans s) (ht : t ∈ spans) : t.last ≤ s.last := by
  obtain ⟨before, after, rfl, hbefore, hafter⟩ := h
  rcases List.mem_append.mp ht with ht | ht
  · exact (hbefore t ht).le
  rcases List.mem_cons.mp ht with rfl | ht
  · exact le_refl _
  · exact hafter t ht

theorem FirstFurthest.cons (h : FirstFurthest spans s) (hlt : t.last < s.last) :
    FirstFurthest (t :: spans) s := by
  obtain ⟨before, after, rfl, hbefore, hafter⟩ := h
  exact ⟨t :: before, after, rfl, List.forall_mem_cons.mpr ⟨hlt, hbefore⟩, hafter⟩

/-- A span that goes no further than the one before it makes no difference. -/
theorem FirstFurthest.insert {u : Span} (h : FirstFurthest (t :: spans) s) (hle : u.last ≤ t.last) :
    FirstFurthest (t :: u :: spans) s := by
  obtain ⟨before, after, heq, hbefore, hafter⟩ := h
  cases before with
  | nil =>
    obtain ⟨rfl, rfl⟩ := List.cons_eq_cons.mp heq
    exact ⟨[], u :: spans, rfl, hbefore, List.forall_mem_cons.mpr ⟨hle, hafter⟩⟩
  | cons v before =>
    obtain ⟨rfl, rfl⟩ := List.cons_eq_cons.mp heq
    obtain ⟨ht, hbefore⟩ := List.forall_mem_cons.mp hbefore
    refine ⟨t :: u :: before, after, rfl, ?_, hafter⟩
    exact List.forall_mem_cons.mpr ⟨ht, List.forall_mem_cons.mpr ⟨hle.trans_lt ht, hbefore⟩⟩

/-- Appending spans that do not overlap leads to the end of the first one that goes furthest. -/
theorem exists_foldl_append {rest : List Span} (h : Separate (s :: rest)) (p : Place) :
    ∃ t, FirstFurthest (s :: rest) t ∧
      rest.foldl append ⟨p, s.last, s.stop⟩ = ⟨p, t.last, t.stop⟩ := by
  induction rest generalizing s with
  | nil => exact ⟨s, ⟨[], [], rfl, by simp, by simp⟩, rfl⟩
  | cons u rest ih =>
    rw [List.foldl_cons, append_end h (by simp) (by simp)]
    -- The highlight that hands over its end leads the rest, the other one is left out.
    split
    next hlt =>
      obtain ⟨t, ht, hfold⟩ := ih (h.sublist (List.sublist_cons_self s _))
      exact ⟨t, ht.cons (hlt.trans_le (ht.last_le (by simp))), hfold⟩
    next hle =>
      obtain ⟨t, ht, hfold⟩ := ih (h.sublist ((List.sublist_cons_self u rest).cons_cons s))
      exact ⟨t, ht.insert (Place.not_lt.mp hle), hfold⟩

/-- The first span that goes furthest stops last, but for spans whose last characters start where
its last character does. -/
theorem FirstFurthest.stop_le_iff (hs : FirstFurthest spans s) (h : Separate spans) :
    (∀ t ∈ spans, t.stop ≤ s.stop) ↔ ∀ t ∈ spans, t.last = s.last → t.stop ≤ s.stop := by
  refine ⟨fun hle t ht _ => hle t ht, fun hle t ht => ?_⟩
  by_cases hlt : t.last < s.last
  · exact (h.stop_lt ht hs.mem hlt).le
  · exact hle t ht (Place.eq_of_le_of_le (hs.last_le ht) (Place.not_lt.mp hlt))

theorem FirstFurthest.stop_le (hs : FirstFurthest spans s) (h : Separate spans)
    (hroom : ∀ t ∈ spans, t.last < t.stop) : ∀ t ∈ spans, t.stop ≤ s.stop := by
  refine (hs.stop_le_iff h).mpr fun t ht heq => ?_
  rw [h.eq_of_last_eq hroom ht hs.mem heq]

end Span

namespace Diagnostic

variable {d : Diagnostic} {first : Span} {rest : List Span}

/-- There is a region, and it covers every highlight. -/
def Covered (d : Diagnostic) : Prop :=
  ∃ region, d.span = some region ∧ ∀ t ∈ d.highlights, region.Covers t

/-- The region goes from the start of the highlight that was added first to the end of the first one
that goes furthest. -/
theorem exists_span_eq (hd : d.highlights = first :: rest) (h : Span.Separate d.highlights) :
    ∃ s, Span.FirstFurthest d.highlights s ∧ d.span = some ⟨first.start, s.last, s.stop⟩ := by
  rw [hd] at h
  obtain ⟨s, hs, hfold⟩ := Span.exists_foldl_append h first.start
  exact ⟨s, hd ▸ hs, by rw [span, hd]; exact congrArg some hfold⟩

theorem covered_iff (hd : d.highlights = first :: rest) {last stop : Place}
    (hspan : d.span = some ⟨first.start, last, stop⟩) :
    d.Covered ↔ (∀ t ∈ rest, first.start ≤ t.start) ∧ ∀ t ∈ d.highlights, t.stop ≤ stop := by
  have hstart : (∀ t ∈ d.highlights, first.start ≤ t.start) ↔
      ∀ t ∈ rest, first.start ≤ t.start := by
    rw [hd, List.forall_mem_cons, and_iff_right (le_refl _)]
  rw [Covered, hspan, ← hstart]
  constructor
  · rintro ⟨region, hregion, hcovers⟩
    cases hregion
    exact ⟨fun t ht => (hcovers t ht).1, fun t ht => (hcovers t ht).2⟩
  · intro ⟨hstarts, hstops⟩
    exact ⟨_, rfl, fun t ht => ⟨hstarts t ht, hstops t ht⟩⟩

/-- If highlights are added in another order, their region is the same just if the same one comes
first. -/
theorem span_eq_iff_of_perm {d' : Diagnostic} (hd : d.highlights = first :: rest)
    (h : Span.Separate d.highlights) (hroom : ∀ t ∈ d.highlights, t.last < t.stop)
    (hp : d'.highlights.Perm d.highlights) :
    d'.span = d.span ↔ d'.highlights.head? = some first := by
  obtain ⟨s, hs, hspan⟩ := exists_span_eq hd h
  cases hd' : d'.highlights with
  | nil =>
    rw [hd', hd] at hp
    exact (List.not_perm_nil_cons _ _ hp).elim
  | cons first' rest' =>
    obtain ⟨s', hs', hspan'⟩ := exists_span_eq hd' (h.perm hp)
    obtain rfl : s' = s := by
      have hmem := hp.mem_iff.mp hs'.mem
      exact h.eq_of_last_eq hroom hmem hs.mem (Place.eq_of_le_of_le (hs.last_le hmem)
        (hs'.last_le (hp.mem_iff.mpr hs.mem)))
    rw [hspan, hspan', List.head?_cons, Option.some.injEq, Option.some.injEq]
    constructor
    · intro heq
      refine h.eq_of_start_eq (hp.mem_iff.mp ?_) ?_ (Span.mk.inj heq).1
      · rw [hd']
        exact List.mem_cons_self
      · rw [hd]
        exact List.mem_cons_self
    · rintro rfl
      rfl

/-- The region of highlights that are not empty and do not overlap goes from the start of the one
that was added first to the end of the first one whose last character starts last. It covers them
all just if no other one starts before the first and none whose last character starts at the same
place stops after that end. Where all their last characters take up some room, the region ends at
the greatest end, it covers all highlights just if none starts before the one that was added first,
and it changes with the order in which they are added just as that one does. -/
theorem span_covers_iff (hd : d.highlights = first :: rest) (h : Span.Separate d.highlights) :
    (∃ s, Span.FirstFurthest d.highlights s ∧ d.span = some ⟨first.start, s.last, s.stop⟩ ∧
      (d.Covered ↔ (∀ t ∈ rest, first.start ≤ t.start) ∧
        ∀ t ∈ d.highlights, t.last = s.last → t.stop ≤ s.stop) ∧
      ((∀ t ∈ d.highlights, t.last < t.stop) → ∀ t ∈ d.highlights, t.stop ≤ s.stop)) ∧
    ((∀ t ∈ d.highlights, t.last < t.stop) →
      (d.Covered ↔ ∀ t ∈ rest, first.start ≤ t.start) ∧
      ∀ d' : Diagnostic, d'.highlights.Perm d.highlights →
        (d'.span = d.span ↔ d'.highlights.head? = some first)) := by
  obtain ⟨s, hs, hspan⟩ := exists_span_eq hd h
  refine ⟨⟨s, hs, hspan, ?_, hs.stop_le h⟩, fun hroom => ⟨?_, fun d' => ?_⟩⟩
  · rw [covered_iff hd hspan, hs.stop_le_iff h]
  · rw [covered_iff hd hspan, and_iff_left (hs.stop_le h hroom)]
  · exact span_eq_iff_of_perm hd h hroom

/-- Three letters, set apart by blanks, of which the second one was added last. -/
def lettersApart : Diagnostic where
  severity := .error
  title := "t"
  highlights := [⟨⟨0, 0⟩, ⟨0, 0⟩, ⟨0, 1⟩⟩, ⟨⟨0, 4⟩, ⟨0, 4⟩, ⟨0, 5⟩⟩, ⟨⟨0, 2⟩, ⟨0, 2⟩, ⟨0, 3⟩⟩]

theorem lettersApart_covered :
    Span.Separate lettersApart.highlights ∧ (∀ t ∈ lettersApart.highlights, t.last < t.stop) ∧
      lettersApart.span = some ⟨⟨0, 0⟩, ⟨0, 4⟩, ⟨0, 5⟩⟩ ∧ lettersApart.Covered ∧
      ∀ d' : Diagnostic, d'.highlights.Perm lettersApart.highlights →
        (d'.span = lettersApart.span ↔
          d'.highlights.head? = some ⟨⟨0, 0⟩, ⟨0, 0⟩, ⟨0, 1⟩⟩) := by
  have hseparate : Span.Separate lettersApart.highlights := by decide
  have hroom : ∀ t ∈ lettersApart.highlights, t.last < t.stop := by decide
  obtain ⟨hcovered, horder⟩ := (span_covers_iff rfl hseparate).2 hroom
  exact ⟨hseparate, hroom, by decide, hcovered.mpr (by decide), horder⟩

/-- Two letters, of which the second one was added first. -/
def secondLetterFirst : Diagnostic where
  severity := .error
  title := "t"
  source := some "f"
  highlights := [⟨⟨0, 1⟩, ⟨0, 1⟩, ⟨0, 2⟩⟩, ⟨⟨0, 0⟩, ⟨0, 0⟩, ⟨0, 1⟩⟩]

/-- The region starts after the first letter, and would not if that letter had been added first. -/
theorem secondLetterFirst_not_covered :
    Span.Separate secondLetterFirst.highlights ∧
      secondLetterFirst.span = some ⟨⟨0, 1⟩, ⟨0, 1⟩, ⟨0, 2⟩⟩ ∧ ¬secondLetterFirst.Covered ∧
      secondLetterFirst.sourceLine false "f" = "  --> f:1:2\n" ∧
      { secondLetterFirst with highlights := secondLetterFirst.highlights.reverse }.span =
        some ⟨⟨0, 0⟩, ⟨0, 1⟩, ⟨0, 2⟩⟩ := by
  have hspan : secondLetterFirst.span = some ⟨⟨0, 1⟩, ⟨0, 1⟩, ⟨0, 2⟩⟩ := by decide
  refine ⟨by decide, hspan, ?_, by decide, by decide⟩
  rw [covered_iff rfl hspan]
  decide

end Diagnostic

end PositionAutomata
