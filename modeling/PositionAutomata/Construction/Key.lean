import Std.Data.TreeSet.Lemmas
import PositionAutomata.Analysis.Basic

/-
  The states of an automaton before they are numbered.

  A state is known by its key: the positions that can be read next, and those of
  them that are lazy. `Analysis.step?` is the key after a letter. From the key of
  the start, `Analysis.expansions` lists all keys in the order in which they are
  met, each with its steps. The keys that were met are kept in an ordered set; a
  key is a pair of sets of positions, so there are at most `4 ^ n` keys over `n`
  positions.
-/

namespace PositionAutomata

/-- The positions of a state, and its lazy positions. -/
structure Key where
  positions : SortedSet
  lazy : SortedSet
  deriving DecidableEq

namespace Key

/-- Keys are ordered by their positions, then by their lazy positions. -/
instance : Ord Key := ⟨compareLex (compareOn (·.positions.toList)) (compareOn (·.lazy.toList))⟩

instance : Std.TransOrd Key := inferInstanceAs (Std.TransCmp (compareLex _ _))

instance : Std.LawfulEqOrd Key where
  eq_of_compare {k l} h := by
    have ⟨hp, hl⟩ := compareLex_eq_eq.mp h
    have hp := SortedSet.ext_toList (Std.LawfulEqOrd.eq_of_compare hp)
    have hl := SortedSet.ext_toList (Std.LawfulEqOrd.eq_of_compare hl)
    cases k
    cases l
    simp_all

end Key

/-- A key and the letters that lead on from it, each with the key it leads to. -/
structure Expansion where
  key : Key
  steps : List (Range × Key)

namespace Analysis

/-- The key of the first positions of the expression. -/
def startKey (a : Analysis) : Key :=
  let first := (a.endsOf a.expr.tag).first
  ⟨first, a.laziness.inherent first⟩

/-- The key after a letter; there is none if no position can follow. -/
def step? (a : Analysis) (k : Key) (letter : Range) : Option Key :=
  let group := k.positions.filter fun p => a.positions.reads p letter
  let next := a.follow.afterAny group
  if next.isEmpty then none else some ⟨next, a.laziness.spread a.follow group next k.lazy⟩

/-- A key with its steps, by letters in order. -/
def expand (a : Analysis) (k : Key) : Expansion :=
  ⟨k, a.alphabet.letters.filterMap fun letter => (a.step? k letter).map (letter, ·)⟩

/-- The keys of a list that are not known yet, each where it first appears. -/
def fresh (known : Std.TreeSet Key) : List Key → List Key
  | [] => []
  | k :: rest => if k ∈ known then fresh known rest else k :: fresh (known.insert k) rest

/-- Expands the waiting keys in order, and those that they lead to. All keys that were
met so far are known. -/
def discover (a : Analysis) : Nat → Std.TreeSet Key → List Key → List Expansion
  | 0, _, _ => []
  | _ + 1, _, [] => []
  | fuel + 1, known, k :: waiting =>
    let x := a.expand k
    let found := fresh known (x.steps.map Prod.snd)
    x :: a.discover fuel (known.insertMany found) (waiting ++ found)

/-- All keys in the order in which they are met, with their steps. -/
def expansions (a : Analysis) : List Expansion :=
  a.discover (Nat.pow 4 a.positions.size) (.ofList [a.startKey]) [a.startKey]

end Analysis

end PositionAutomata
