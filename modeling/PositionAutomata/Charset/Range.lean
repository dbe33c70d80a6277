import PositionAutomata.Text.Escape

/-
  Code points, anchors and closed ranges of them.

  Code points go up to `maxCodepoint`. The two anchors are the values right
  above: `lineStart` holds where a line begins and `textEnd` where the text
  ends. A range never is empty: its type says `first ≤ last`. An anchor range
  is one that starts above the code points; `Range.touches` joins two ranges
  into one only when neither is an anchor or both are the same.
-/

namespace PositionAutomata

/-- The greatest code point. -/
def maxCodepoint : Nat := 0x10ffff

/-- The anchor of a line start. -/
def lineStart : Nat := 0x110000

/-- The anchor of the text end. -/
def textEnd : Nat := 0x110001

/-- Characters are code points. -/
theorem le_maxCodepoint_of_char (c : Char) : c.toNat ≤ maxCodepoint := by
  have hv := c.valid
  simp only [UInt32.isValidChar, Nat.isValidChar] at hv
  rw [maxCodepoint, Char.toNat]
  omega

/-- A value as escaped text: an anchor by its sign in braces, a character in
its escaped form, and a value that is no character by its hexadecimal digits. -/
def codepointChars (n : Nat) : List Char :=
  if n = lineStart then ['\x7b', '^', '\x7d']
  else if n = textEnd then ['\x7b', '$', '\x7d']
  else if n.isValidChar then Text.encodeChar (Char.ofNat n)
  else '\\' :: 'u' :: Text.hexDigits 4 n

/-- The values from `first` to `last`. -/
structure Range where
  first : Nat
  last : Nat
  first_le_last : first ≤ last := by omega
  deriving DecidableEq

namespace Range

/-- The range of one value. -/
def single (c : Nat) : Range := ⟨c, c, Nat.le_refl c⟩

/-- The values from `first` to `last`, or `first` alone if `last` is smaller. -/
def upTo (first last : Nat) : Range := ⟨first, max first last, Nat.le_max_left _ _⟩

/-- Number of values. -/
def size (r : Range) : Nat := r.last - r.first + 1

/-- Whether the range lies above the code points. -/
def isAnchor (r : Range) : Bool := maxCodepoint < r.first

/-- Whether a value is in the range. -/
def contains (r : Range) (c : Nat) : Bool := r.first ≤ c && c ≤ r.last

/-- Whether some value is in both ranges. -/
def intersects (r s : Range) : Bool := r.first ≤ s.last && s.first ≤ r.last

/-- Whether the two ranges together are one range: they overlap or follow each
other without a gap. An anchor only touches itself. -/
def touches (r s : Range) : Bool :=
  if r.isAnchor || s.isAnchor then r == s
  else r.first ≤ s.last + 1 && s.first ≤ r.last + 1

/-- The smallest range that holds both. -/
def hull (r s : Range) : Range :=
  ⟨min r.first s.first, max r.last s.last, by
    have := r.first_le_last
    omega⟩

/-- All values, in ascending order. -/
def codepoints (r : Range) : List Nat := List.range' r.first r.size

/-- The order by first value, then by last value. -/
def le (r s : Range) : Bool := r.first < s.first || (r.first = s.first && r.last ≤ s.last)

/-- A range as escaped text. Two neighbours are written side by side. -/
def chars (r : Range) : List Char :=
  if r.first = r.last then codepointChars r.first
  else if r.first + 1 = r.last then codepointChars r.first ++ codepointChars r.last
  else codepointChars r.first ++ '-' :: codepointChars r.last

theorem contains_iff {r : Range} {c : Nat} : r.contains c = true ↔ r.first ≤ c ∧ c ≤ r.last := by
  simp [contains]

theorem contains_single {a c : Nat} : (single a).contains c = true ↔ c = a := by
  simp only [contains_iff, single]; omega

theorem intersects_iff {r s : Range} :
    r.intersects s = true ↔ ∃ c, r.contains c = true ∧ s.contains c = true := by
  simp only [intersects, contains_iff, Bool.and_eq_true, decide_eq_true_eq]
  constructor
  · intro h
    have := r.first_le_last
    have := s.first_le_last
    exact ⟨max r.first s.first, by omega⟩
  · rintro ⟨c, h⟩
    omega

theorem mem_codepoints {r : Range} {c : Nat} : c ∈ r.codepoints ↔ r.contains c = true := by
  have := r.first_le_last
  simp only [codepoints, List.mem_range'_1, size, contains_iff]
  omega

theorem length_codepoints (r : Range) : r.codepoints.length = r.size := by simp [codepoints]

theorem isAnchor_iff {r : Range} : r.isAnchor = true ↔ maxCodepoint < r.first := by simp [isAnchor]

end Range

end PositionAutomata
