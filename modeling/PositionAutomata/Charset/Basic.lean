import PositionAutomata.Charset.Class
import PositionAutomata.Charset.Normal

/-
  Charsets: what a bracketed set of characters is made of, and the ranges it
  stands for.

  A charset is a list of entries, kept in the order and spelling in which they
  were given, and a mark that negates all of them together. `Charset.ranges` is
  its meaning; it is always in normal form.
-/

namespace PositionAutomata

/-- One member of a charset. -/
inductive Entry where
  | char (c : Nat)
  | range (r : Range)
  | named (cls : CharClass) (negated : Bool)
  deriving DecidableEq

namespace Entry

/-- The values of the entry. -/
def ranges : Entry → List Range
  | char c => [.single c]
  | range r => [r]
  | named cls false => cls.ranges
  | named cls true => Range.complement cls.ranges

/-- The entry as it is written inside a charset. -/
def chars : Entry → List Char
  | char c => (Range.single c).chars
  | range r => r.chars
  | named cls negated => cls.chars negated

end Entry

/-- A set of characters given by its entries. -/
structure Charset where
  entries : List Entry
  negated : Bool
  deriving DecidableEq

namespace Charset

/-- The values of the charset: those of some entry, or those of none. -/
def ranges (s : Charset) : List Range :=
  let rs := s.entries.flatMap Entry.ranges
  if s.negated then Range.complement rs else Range.normalize rs

/-- The charset in brackets. -/
def chars (s : Charset) : List Char :=
  '[' :: (if s.negated then ['^'] else []) ++ s.entries.flatMap Entry.chars ++ [']']

/-- Every character but a line feed. -/
def anyChar : Charset := ⟨[.char 0x0a], true⟩

end Charset

end PositionAutomata
