/-
  The two character classes that separate words of a document.

  `isControl` is the Unicode general category Cc and `isSpace` the Unicode
  property White_Space. The tables are complete: both classes are closed, so
  no other code point belongs to them. `isSpace_of_isWhitespace` says that the
  blanks of ASCII are among them.
-/

namespace PositionAutomata.Text

/-- Control characters (general category Cc). -/
def isControl (c : Char) : Bool :=
  c.toNat ≤ 0x1f || (0x7f ≤ c.toNat && c.toNat ≤ 0x9f)

/-- Code points with the property White_Space, as closed intervals. -/
def spaceIntervals : List (Nat × Nat) :=
  [(0x09, 0x0d), (0x20, 0x20), (0x85, 0x85), (0xa0, 0xa0), (0x1680, 0x1680), (0x2000, 0x200a),
    (0x2028, 0x2029), (0x202f, 0x202f), (0x205f, 0x205f), (0x3000, 0x3000)]

/-- Characters with the property White_Space. -/
def isSpace (c : Char) : Bool :=
  spaceIntervals.any fun i => i.1 ≤ c.toNat && c.toNat ≤ i.2

/-- Characters that stand between words: spaces and control characters. -/
def isBlank (c : Char) : Bool := isSpace c || isControl c

theorem isBlank_of_isSpace {c : Char} (h : isSpace c = true) : isBlank c = true := by
  simp [isBlank, h]

theorem isBlank_of_isControl {c : Char} (h : isControl c = true) : isBlank c = true := by
  simp [isBlank, h]

theorem isSpace_of_isWhitespace {c : Char} (h : c.isWhitespace = true) : isSpace c = true := by
  simp only [Char.isWhitespace, Bool.or_eq_true, decide_eq_true_eq] at h
  rcases h with ((rfl | rfl) | rfl) | rfl <;> rfl

end PositionAutomata.Text
