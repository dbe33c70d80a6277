/-
  Why a tree, a table or an array cannot be used as asked.

  `Failure` lists the causes; `title` is a heading for each and `message` says
  it in full.
-/

namespace PositionAutomata

/-- The causes of failure. -/
inductive Failure where
  /-- A tree has no root. -/
  | missingRoot
  /-- No node has this number, or it is no child that its parent may have. -/
  | unknownNode (id : Nat)
  /-- The minimum of a bounded repetition is above its maximum. -/
  | invalidRepetition (id : Nat)
  /-- No leaf has this position. -/
  | unknownPosition (p : Nat)
  /-- A lexer is asked for, and the root is no alternation. -/
  | rootNotAlternation
  /-- An array does not hold an automaton; the offset says where. -/
  | malformedArray (offset : Nat)
  deriving DecidableEq

namespace Failure

/-- The heading for a cause. -/
def title : Failure → String
  | missingRoot => "missing root"
  | unknownNode _ => "dangling node reference"
  | invalidRepetition _ => "invalid repetition bounds"
  | unknownPosition _ => "unknown position"
  | rootNotAlternation => "invalid lexer"
  | malformedArray _ => "malformed packed array"

/-- The cause in full. -/
def message : Failure → String
  | missingRoot => "the tree has no root node"
  | unknownNode id => "reference to unknown node n" ++ id.repr
  | invalidRepetition id => "repetition n" ++ id.repr ++ " has a minimum greater than its maximum"
  | unknownPosition p => "position " ++ p.repr ++ " is not part of the tree"
  | rootNotAlternation => "lexer mode requires a top-level alternation"
  | malformedArray offset => "malformed packed array at offset " ++ offset.repr

end Failure

theorem throw_ne_ok {α : Type} {f : Failure} {a : α} : (throw f : Except Failure α) ≠ .ok a :=
  nofun

/-- Two steps succeed if the first one does and the second one does on its result. -/
theorem bind_eq_ok {α β : Type} {x : Except Failure α} {f : α → Except Failure β} {b : β} :
    (x >>= f) = .ok b ↔ ∃ a, x = .ok a ∧ f a = .ok b := by
  cases x with
  | error f => simp [bind, Except.bind]
  | ok a => simp [bind, Except.bind]

end PositionAutomata
