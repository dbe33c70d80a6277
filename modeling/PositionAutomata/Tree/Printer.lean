import PositionAutomata.Tree.Expr

/-
  Expressions as text, in the usual notation of regular expressions.

  Groups that do not capture are written only where precedence asks for them:
  around an alternation below any other node, and around a concatenation or a
  repetition below a repetition. A terminator is written as a mark of its own.
-/

namespace PositionAutomata

/-- Characters that a backslash must precede to stand for themselves. -/
def specialChars : List Char :=
  ['\\', '.', '[', ']', '(', ')', '|', '\x7b', '\x7d', '?', '*', '+', '^', '$']

namespace Leaf

/-- A value as it stands in an expression; anchors by their sign. -/
def codepointText (c : Nat) : List Char :=
  if c = lineStart then ['^']
  else if c = textEnd then ['$']
  else if c.isValidChar && specialChars.contains (Char.ofNat c) then ['\\', Char.ofNat c]
  else codepointChars c

/-- The text of a leaf. -/
def chars : Leaf → List Char
  | codepoint c => codepointText c
  | empty => []
  | charset s => s.chars
  | terminator _ => "<<END>>".toList

end Leaf

namespace Quantifier

/-- A count between braces. -/
private def braced (cs : List Char) : List Char := '\x7b' :: cs ++ ['\x7d']

/-- The bounds, in the shortest of the usual notations. -/
def boundChars (q : Quantifier) : List Char :=
  if q.canSkip && q.isUnbounded then ['*']
  else if q.canSkip && q.max = 1 then ['?']
  else if q.min = 1 && q.isUnbounded then ['+']
  else if q.min = q.max then braced q.min.repr.toList
  else if q.isUnbounded then braced (q.min.repr.toList ++ [','])
  else braced (q.required.repr.toList ++ ',' :: q.max.repr.toList)

/-- The quantifier as it follows its expression. -/
def chars (q : Quantifier) : List Char := q.boundChars ++ if q.lazy then ['?'] else []

end Quantifier

namespace Expr

variable {α : Type}

/-- Whether the expression needs a group below a concatenation, or, if `tight`,
below a repetition. -/
def needsGroup (tight : Bool) : Expr α → Bool
  | alternation _ _ _ => true
  | concat _ _ _ => tight
  | repetition _ _ _ => tight
  | _ => false

/-- A text, in a group that does not capture if asked. -/
def grouped (group : Bool) (cs : List Char) : List Char :=
  if group then "(?:".toList ++ cs ++ [')'] else cs

/-- The text of an expression. -/
def chars : Expr α → List Char
  | leaf _ l => l.chars
  | concat _ l r => grouped (l.needsGroup false) l.chars ++ grouped (r.needsGroup false) r.chars
  | alternation _ l r => l.chars ++ '|' :: r.chars
  | repetition _ q e => grouped (e.needsGroup true) e.chars ++ q.chars
  | capture _ ⟨_, some name⟩ e => "(?<".toList ++ name.toList ++ '>' :: e.chars ++ [')']
  | capture _ ⟨_, none⟩ e => '(' :: e.chars ++ [')']

end Expr

namespace Tree

/-- The text of a node; a number without a node is shown as such. -/
def text (t : Tree) (id : NodeId) : String :=
  match t.expr id with
  | .ok e => String.ofList e.chars
  | .error _ => "<n" ++ id.repr ++ "?>"

/-- The text of the whole tree, empty without a root. -/
def rootText (t : Tree) : String := t.root.elim "" t.text

end Tree

end PositionAutomata
