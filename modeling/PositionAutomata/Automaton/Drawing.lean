import PositionAutomata.Automaton.Reachability
import PositionAutomata.Charset.Label

/-
  Drawings of automata in the DOT language.

  States are numbered in the order of the closure of the start. There is an edge
  for each state and target, labelled with the ranges that lead there, and a
  node for each state, labelled with its number, its symbol and its events.
  Accepting states have a double circle, and states that accept nothing and
  lead nowhere are gray.
-/

namespace PositionAutomata.Drawing

/-- A text inside double quotes. -/
def escape (cs : List Char) : List Char :=
  cs.flatMap fun c => if c = '"' || c = '\\' then ['\\', c] else [c]

/-- The name of the node of a state. -/
def node (i : Nat) : List Char := 'q' :: i.repr.toList

/-- The line of an edge. -/
def edgeLine (source target : Nat) (rs : List Range) : List Char :=
  '\t' :: node source ++ " -> ".toList ++ node target ++ " [ label=\"".toList ++
    escape (Label.chars rs) ++ "\" ]\n".toList

/-- A row of the table in a node. -/
def row (cs : List Char) : List Char := "<TR><TD>".toList ++ cs ++ "</TD></TR>".toList

/-- How the node of a state differs from a plain circle. -/
def shape (q : State) : List Char :=
  if q.isAccepting then ", shape=doublecircle".toList
  else if q.transitions.isEmpty then ", color=gray".toList
  else []

/-- The line of a node. -/
def nodeLine (i : Nat) (q : State) : List Char :=
  '\t' :: node i ++ " [ label=<<TABLE BORDER=\"0\">".toList ++
    row ("q<SUB>".toList ++ i.repr.toList ++ "</SUB>".toList) ++
    q.accept.elim [] (fun symbol => row symbol.repr.toList) ++
    q.events.flatMap (fun e => row e.chars) ++
    "</TABLE>>".toList ++ shape q ++ " ]\n".toList

/-- The drawing of an automaton. -/
def chars (a : Automaton) : List Char :=
  let order := a.closure a.start
  let index := Index.ofList order
  let states := order.filterMap a.get?
  let edges := states.zipIdx.flatMap fun (q, i) =>
    q.grouped.flatMap fun (target, rs) => edgeLine i (Automaton.rank index target) rs
  let nodes := states.zipIdx.flatMap fun (q, i) => nodeLine i q
  "digraph FA \x7b\n\trankdir=LR\n\tnode [shape=circle]\n".toList ++ edges ++ nodes ++ ['\x7d']

/-- The drawing of an automaton as text. -/
def text (a : Automaton) : String := String.ofList (chars a)

end PositionAutomata.Drawing
