import PositionAutomata.Proofs.Expr.Matches

/-
  Anchors in the ranges of leaves.

  A range that holds an anchor should hold nothing else, or it would be read
  where the anchor does not hold. Joining ranges keeps it so, since an anchor
  only touches itself, and complements hold no anchor; so a leaf is sharp unless
  it is a charset that was given a range from code points up to an anchor
  (`Leaf.IsBounded.isSharp`).
-/

namespace PositionAutomata

namespace Range

/-- The range ends at a code point, or is one value. -/
def IsSharp (r : Range) : Prop := r.last ≤ maxCodepoint ∨ r.first = r.last

theorem isSharp_single (c : Nat) : (single c).IsSharp := .inr rfl

theorem mem_coalesceFrom {P : Range → Prop}
    (hull : ∀ r s, P r → P s → r.touches s = true → P (r.hull s)) {current : Range}
    {rs : List Range} (hc : P current) (h : ∀ r ∈ rs, P r) :
    ∀ r ∈ coalesceFrom current rs, P r := by
  induction rs generalizing current with
  | nil => exact fun r hr => by rwa [List.mem_singleton.mp hr]
  | cons next rest ih =>
    obtain ⟨hn, hrest⟩ := List.forall_mem_cons.mp h
    rw [coalesceFrom]
    split
    next ht => exact ih (hull current next hc hn ht) hrest
    next => exact List.forall_mem_cons.mpr ⟨hc, ih hn hrest⟩

/-- What joining ranges that touch keeps holds of the normal form. -/
theorem mem_normalize {P : Range → Prop}
    (hull : ∀ r s, P r → P s → r.touches s = true → P (r.hull s)) {rs : List Range}
    (h : ∀ r ∈ rs, P r) : ∀ r ∈ normalize rs, P r := by
  have hs : ∀ r ∈ rs.mergeSort le, P r := fun r hr => h r (List.mem_mergeSort.mp hr)
  rw [normalize]
  split
  next => exact fun r hr => absurd hr (by simp)
  next r rest heq =>
    rw [heq] at hs
    obtain ⟨hr, hrest⟩ := List.forall_mem_cons.mp hs
    exact mem_coalesceFrom hull hr hrest

theorem IsSharp.hull {r s : Range} (hr : r.IsSharp) (hs : s.IsSharp) (ht : r.touches s = true) :
    (r.hull s).IsSharp := by
  -- An anchor touches only itself, and otherwise both ranges hold code points.
  rw [touches] at ht
  split at ht
  next =>
    obtain rfl : r = s := by simpa using ht
    simp only [IsSharp, Range.hull, Nat.min_self, Nat.max_self] at hr ⊢
    exact hr
  next ha =>
    simp only [isAnchor, Bool.or_eq_true, decide_eq_true_eq, not_or, Nat.not_lt] at ha
    simp only [IsSharp, Range.hull] at hr hs ⊢
    omega

theorem isSharp_normalize {rs : List Range} (h : ∀ r ∈ rs, r.IsSharp) :
    ∀ r ∈ normalize rs, r.IsSharp :=
  mem_normalize (fun _ _ => IsSharp.hull) h

theorem le_of_mem_complementFrom {next : Nat} {rs : List Range} (hn : next ≤ maxCodepoint)
    (h : ∀ r ∈ rs, r.first ≤ maxCodepoint) :
    ∀ r ∈ complementFrom next rs, r.last ≤ maxCodepoint := by
  induction rs generalizing next with
  | nil =>
    intro r hr
    rw [List.mem_singleton.mp hr, upTo]
    exact Nat.max_le.mpr ⟨hn, Nat.le_refl _⟩
  | cons s rest ih =>
    obtain ⟨hs, hrest⟩ := List.forall_mem_cons.mp h
    intro r hr
    rw [complementFrom, List.mem_append] at hr
    rcases hr with hr | hr
    · split at hr
      · rw [List.mem_singleton.mp hr, upTo]
        simp only
        omega
      · exact absurd hr (by simp)
    · split at hr
      · exact ih (by omega) hrest r hr
      · exact absurd hr (by simp)

/-- A complement holds code points only. -/
theorem le_of_mem_complement {rs : List Range} {r : Range} (h : r ∈ complement rs) :
    r.last ≤ maxCodepoint := by
  refine le_of_mem_complementFrom (Nat.zero_le _) (mem_normalize ?_ fun s hs => ?_) r h
  · intro s t hs _ _
    exact Nat.le_trans (Nat.min_le_left _ _) hs
  · have hna := (List.mem_filter.mp hs).2
    simpa [isAnchor] using hna

end Range

/-- Each range of the leaf that holds an anchor holds nothing else. -/
def Leaf.IsSharp (l : Leaf) : Prop :=
  ∀ r ∈ l.ranges, r.contains lineStart = true ∨ r.contains textEnd = true → r.first = r.last

theorem Leaf.IsAnchorFree.isSharp {l : Leaf} (h : l.IsAnchorFree) : l.IsSharp := fun r hr ha =>
  absurd ha (by simp [h r hr])

theorem Leaf.isSharp_of_ranges {l : Leaf} (h : ∀ r ∈ l.ranges, r.IsSharp) : l.IsSharp := by
  intro r hr ha
  apply (h r hr).resolve_left
  intro hle
  simp only [Range.contains_iff, lineStart, textEnd] at ha
  rw [maxCodepoint] at hle
  omega

/-- A range that is given in a charset ends at a code point. -/
def Entry.IsBounded : Entry → Prop
  | range r => r.last ≤ maxCodepoint
  | _ => True

/-- The ranges that are given for a charset end at code points. -/
def Leaf.IsBounded : Leaf → Prop
  | charset s => ∀ x ∈ s.entries, x.IsBounded
  | _ => True

instance (x : Entry) : Decidable x.IsBounded :=
  match x with
  | .char _ => isTrue True.intro
  | .range r => inferInstanceAs (Decidable (r.last ≤ maxCodepoint))
  | .named _ _ => isTrue True.intro

instance : DecidablePred Leaf.IsBounded
  | .charset s => inferInstanceAs (Decidable (∀ x ∈ s.entries, x.IsBounded))
  | .codepoint _ => isTrue True.intro
  | .empty => isTrue True.intro
  | .terminator _ => isTrue True.intro

theorem Entry.IsBounded.isSharp {x : Entry} (h : x.IsBounded) : ∀ r ∈ x.ranges, r.IsSharp := by
  intro r hr
  match x with
  | .char c =>
    rw [List.mem_singleton.mp hr]
    exact Range.isSharp_single c
  | .range s =>
    rw [List.mem_singleton.mp hr]
    exact .inl h
  | .named cls true => exact .inl (Range.le_of_mem_complement hr)
  | .named cls false =>
    left
    revert r
    cases cls <;> decide

/-- A leaf whose charset ends its ranges at code points is sharp. -/
theorem Leaf.IsBounded.isSharp {l : Leaf} (h : l.IsBounded) : l.IsSharp := by
  apply Leaf.isSharp_of_ranges
  intro r hr
  match l with
  | .codepoint c =>
    rw [List.mem_singleton.mp hr]
    exact Range.isSharp_single c
  | .empty => exact absurd hr (by simp [Leaf.ranges])
  | .terminator _ => exact absurd hr (by simp [Leaf.ranges])
  | .charset s =>
    rw [Leaf.ranges, Charset.ranges] at hr
    split at hr
    · exact .inl (Range.le_of_mem_complement hr)
    · refine Range.isSharp_normalize (fun q hq => ?_) r hr
      obtain ⟨x, hx, hq⟩ := List.mem_flatMap.mp hq
      exact (h x hx).isSharp q hq

end PositionAutomata
