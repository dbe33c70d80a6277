import PositionAutomata.Charset.Range

/-
  The named character classes.

  A class has a name and a table of ranges over ASCII. In a document a name may
  carry a leading `^`, which asks for the complement of the class.
-/

namespace PositionAutomata

/-- A class of characters known by name. -/
inductive CharClass where
  | digit
  | space
  | word
  | alpha
  | alnum
  | upper
  | lower
  | xdigit
  | punct
  | cntrl
  | blank
  | print
  | graph
  | ascii
  deriving DecidableEq

namespace CharClass

/-- All classes. -/
def all : List CharClass :=
  [digit, space, word, alpha, alnum, upper, lower, xdigit, punct, cntrl, blank, print, graph, ascii]

/-- The name by which a document refers to the class. -/
def name : CharClass → String
  | digit => "digit"
  | space => "space"
  | word => "word"
  | alpha => "alpha"
  | alnum => "alnum"
  | upper => "upper"
  | lower => "lower"
  | xdigit => "xdigit"
  | punct => "punct"
  | cntrl => "cntrl"
  | blank => "blank"
  | print => "print"
  | graph => "graph"
  | ascii => "ascii"

/-- The ranges of the class, in ascending order. -/
def ranges : CharClass → List Range
  | digit => [⟨0x30, 0x39, by decide⟩]
  | space => [⟨0x09, 0x0d, by decide⟩, .single 0x20]
  | word =>
    [⟨0x30, 0x39, by decide⟩, ⟨0x41, 0x5a, by decide⟩, .single 0x5f, ⟨0x61, 0x7a, by decide⟩]
  | alpha => [⟨0x41, 0x5a, by decide⟩, ⟨0x61, 0x7a, by decide⟩]
  | alnum => [⟨0x30, 0x39, by decide⟩, ⟨0x41, 0x5a, by decide⟩, ⟨0x61, 0x7a, by decide⟩]
  | upper => [⟨0x41, 0x5a, by decide⟩]
  | lower => [⟨0x61, 0x7a, by decide⟩]
  | xdigit => [⟨0x30, 0x39, by decide⟩, ⟨0x41, 0x46, by decide⟩, ⟨0x61, 0x66, by decide⟩]
  | punct =>
    [⟨0x21, 0x2f, by decide⟩, ⟨0x3a, 0x40, by decide⟩, ⟨0x5b, 0x60, by decide⟩,
      ⟨0x7b, 0x7e, by decide⟩]
  | cntrl => [⟨0x00, 0x1f, by decide⟩, .single 0x7f]
  | blank => [.single 0x09, .single 0x20]
  | print => [⟨0x20, 0x7e, by decide⟩]
  | graph => [⟨0x21, 0x7e, by decide⟩]
  | ascii => [⟨0x00, 0x7f, by decide⟩]

/-- The class of that name. -/
def ofName? (s : String) : Option CharClass := all.find? fun c => c.name == s

/-- A class as it is written inside a charset; a negated one carries `^`. -/
def chars (c : CharClass) (negated : Bool) : List Char :=
  "[:".toList ++ (if negated then ['^'] else []) ++ c.name.toList ++ ":]".toList

/-- The class that a spelling names, and whether the spelling negates it. -/
def ofSpelling? (s : String) : Option (CharClass × Bool) :=
  match s.toList with
  | '^' :: rest => (ofName? (String.ofList rest)).map (·, true)
  | _ => (ofName? s).map (·, false)

theorem ofName?_name (c : CharClass) : ofName? c.name = some c := by cases c <;> rfl

theorem name_of_ofName? {s : String} {c : CharClass} (h : ofName? s = some c) : c.name = s := by
  have := List.find?_some h
  simpa using this

end CharClass

end PositionAutomata
