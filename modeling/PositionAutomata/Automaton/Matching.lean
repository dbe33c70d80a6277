import PositionAutomata.Automaton.Reachability
import PositionAutomata.SortedSet

/-
  Matching texts.

  While a text is read the automaton is in a set of states: those reached by
  the characters so far and, from these, by the anchors that hold between the
  characters read and the rest. `Automaton.course` lists these sets from the
  start of the text as long as they are not empty. A text is accepted with the
  least symbol of the set after its last character, and its longest match ends
  at the last set of the course that accepts.
-/

namespace PositionAutomata

/-- Whether a transition with this range can be taken without reading after the
first `i` characters of a text: the line start holds at the start and after a
line feed, the text end after all characters. -/
def Range.holdsAt (r : Range) (text : Array Char) (i : Nat) : Bool :=
  (r.contains lineStart && (i = 0 || text[i - 1]? = some '\n')) ||
    (r.contains textEnd && i = text.size)

namespace Automaton

/-- The states with those transitions that can be taken without reading. -/
def anchorGraph (a : Automaton) (text : Array Char) (i : Nat) : Graph StateId where
  isNode q := q < a.size
  next q :=
    ((a.get? q).elim [] State.transitions).filterMap fun t =>
      if t.range.holdsAt text i then some t.target else none
  finite := a.exists_nodes

/-- The states reached from a set without reading. -/
def settle (a : Automaton) (text : Array Char) (i : Nat) (s : SortedSet) : SortedSet :=
  .ofList ((a.anchorGraph text i).reachable s.toList)

/-- The states reached from a set by reading a character. -/
def advance (a : Automaton) (s : SortedSet) (c : Char) : SortedSet :=
  .ofList (s.toList.filterMap fun q => (a.get? q).bind (·.next? c.toNat))

/-- The least symbol that a state of the set accepts. -/
def best (a : Automaton) (s : SortedSet) : Option Nat := (s.toList.filterMap a.accept).min?

/-- The sets of states from the set `s` after `i` characters on, as long as they
are not empty. -/
def courseFrom (a : Automaton) (text : Array Char) (i : Nat) (s : SortedSet) :
    List Char → List SortedSet
  | [] => [s]
  | c :: rest =>
    let next := a.advance s c
    s :: if next.isEmpty then [] else a.courseFrom text (i + 1) (a.settle text (i + 1) next) rest

/-- The sets of states after each number of characters. -/
def course (a : Automaton) (text : List Char) : List SortedSet :=
  let array := text.toArray
  a.courseFrom array 0 (a.settle array 0 (.singleton a.start)) text

/-- The symbol with which the whole text is accepted. -/
def run (a : Automaton) (text : List Char) : Option Nat :=
  (a.course text)[text.length]?.bind a.best

/-- Whether the whole text is accepted. -/
def accepts (a : Automaton) (text : List Char) : Bool := (a.run text).isSome

/-- Length of a text in UTF-8. -/
def byteLength : List Char → Nat
  | [] => 0
  | c :: cs => c.utf8Size + byteLength cs

/-- The symbol of the longest accepted beginning of the text, and its number of
characters. -/
def longestPrefix (a : Automaton) (text : List Char) : Option (Nat × Nat) :=
  (a.course text).zipIdx.reverse.findSome? fun (s, i) => (a.best s).map (·, i)

/-- The symbol of the longest accepted beginning of the text, and its length in
bytes. -/
def longestMatch (a : Automaton) (text : List Char) : Option (Nat × Nat) :=
  (a.longestPrefix text).map fun (symbol, i) => (symbol, byteLength (text.take i))

end Automaton

end PositionAutomata
