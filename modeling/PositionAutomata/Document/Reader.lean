import PositionAutomata.Document.Token.Lexer
import PositionAutomata.Tree.Basic

/-
  The reader: trees from documents.

  A document is a list of expressions, which are alternatives of each other. An
  expression is a string, a charset, one of the words `^`, `$` and `.`, or a
  group that starts with the name of a form:

    (cat e ...)  (or e e ...)  (star e)  (plus e)  (opt e)
    (repeat min max e)  (lazy repetition)
    (capture e)  (capture name e)  (class name)  (empty)

  Capture groups are numbered from one in the order in which they open. The
  nodes of an expression are added after those of its parts, so the tree is
  well formed and its root is its last node.
-/

namespace PositionAutomata

/-- The forms by name. -/
inductive Form where
  | sequence
  | choice
  | quantified (q : Quantifier)
  | counted
  | lazy
  | capture
  | named
  | empty

namespace Form

/-- The form of that name. -/
def ofName? : String → Option Form
  | "cat" => some sequence
  | "or" => some choice
  | "star" => some (quantified .star)
  | "plus" => some (quantified .plus)
  | "opt" => some (quantified .optional)
  | "repeat" => some counted
  | "lazy" => some lazy
  | "capture" => some capture
  | "class" => some named
  | "empty" => some empty
  | _ => none

/-- Whether the form may be lazy. -/
def isRepetition : Form → Bool
  | quantified _ => true
  | counted => true
  | _ => false

end Form

namespace Reader

/-- What has been read so far: the tree, and the number of capture groups. -/
structure State where
  tree : Tree
  groups : Nat

/-- Reading fails at the first fault. -/
abbrev Read := StateT State (Except (Located DocumentFault))

/-- Fails with a fault at a span. -/
def fault {α : Type} (span : Span) (f : DocumentFault) : Read α := throw ⟨f, span⟩

/-- Adds to the tree. -/
def add (step : Tree.Step NodeId) : Read NodeId := do
  let s ← get
  let (id, tree) := step s.tree
  set { s with tree }
  return id

/-- The number of a new capture group. -/
def newGroup : Read Nat := do
  let s ← get
  set { s with groups := s.groups + 1 }
  return s.groups + 1

/-- The name that a token is. -/
def name : Token → Read String
  | .ident _ cs => return String.ofList cs
  | t => fault t.span (.unexpectedToken t)

/-- Least and greatest bound of a repetition. -/
def boundRange : Int × Int := (-0x80000000, 0x7fffffff)

/-- The number that decimal digits, with or without a sign, stand for. -/
def decimal? (cs : List Char) : Option Int :=
  let digits (cs : List Char) : Option Int :=
    if !cs.isEmpty && cs.all Char.isDigit then
      some (cs.foldl (fun n c => 10 * n + (c.toNat - '0'.toNat)) 0 : Nat)
    else none
  match cs with
  | '-' :: cs => (digits cs).map (- ·)
  | '+' :: cs => digits cs
  | cs => digits cs

/-- The bound that a token is. -/
def bound (t : Token) : Read Int := do
  let s ← name t
  match decimal? s.toList with
  | some n =>
    if boundRange.1 ≤ n ∧ n ≤ boundRange.2 then return n else fault t.span (.invalidBound s)
  | none => fault t.span (.invalidBound s)

/-- An expression that is one word. -/
def readWord (t : Token) : List Char → Read NodeId
  | ['^'] => add (Tree.leaf (.codepoint lineStart))
  | ['$'] => add (Tree.leaf (.codepoint textEnd))
  | ['.'] => add (Tree.leaf (.charset .anyChar))
  | _ => fault t.span (.unexpectedToken t)

/-- A charset given by the name of its class. -/
def readClass (t : Token) : Read NodeId := do
  let s ← name t
  match CharClass.ofSpelling? s with
  | some (cls, negated) => add (Tree.leaf (.charset ⟨[.named cls negated], false⟩))
  | none => fault t.span (.unknownClass s)

mutual

/-- Reads one expression, which must be a repetition if it is to be lazy. -/
def read (lazy : Bool) : Token → Read NodeId
  | .string span text => if lazy then fault span .notRepetition else add (Tree.string text)
  | .charset span set =>
    if lazy then fault span .notRepetition else add (Tree.leaf (.charset set))
  | .ident span cs => if lazy then fault span .notRepetition else readWord (.ident span cs) cs
  | .group span [] => fault span .noExpression
  | .group span (.ident _ cs :: args) => do
    let name := String.ofList cs
    let form := Form.ofName? name
    if lazy && !form.any Form.isRepetition then fault span .notRepetition
    else match form, args with
    | none, _ => fault span (.unknownForm name)
    | some .sequence, args => add (Tree.concatAll (← readAll args))
    | some .choice, [] => fault span (.arity name 1)
    | some .choice, args => add (Tree.anyOf (← readAll args))
    | some (.quantified q), [e] => add (Tree.repetition (← read false e) { q with lazy })
    | some (.quantified _), _ => fault span (.arity name 1)
    | some .counted, [min, max, e] =>
      let min ← bound min
      let max ← bound max
      add (Tree.repetition (← read false e) ⟨min, max, lazy⟩)
    | some .counted, _ => fault span (.arity name 3)
    | some .lazy, [e] => read true e
    | some .lazy, _ => fault span (.arity name 1)
    | some .capture, args =>
      let number ← newGroup
      match args with
      | [e] => add (Tree.capture (← read false e) ⟨number, none⟩)
      | [label, e] =>
        let label ← Reader.name label
        add (Tree.capture (← read false e) ⟨number, some label⟩)
      | _ => fault span (.arity name 2)
    | some .named, [t] => readClass t
    | some .named, _ => fault span (.arity name 1)
    | some .empty, [] => add (Tree.leaf .empty)
    | some .empty, _ => fault span (.arity name 0)
  | .group _ (head :: _) => fault head.span (.unexpectedToken head)

/-- Reads some expressions in order. -/
def readAll : List Token → Read (List NodeId)
  | [] => return []
  | t :: rest => return (← read false t) :: (← readAll rest)

end

/-- Reads the items of a document; `span` covers those read before, and
`alternatives` are their expressions in reverse. -/
def readItems (span : Span) (alternatives : List NodeId) : List Lexer.Item → Read NodeId
  | [] =>
    if alternatives.isEmpty then fault span .noExpression
    else add (Tree.anyOf alternatives.reverse)
  | .error f :: _ => fault f.span (.lexical f.value)
  | .ok t :: rest => do
    let id ← read false t
    readItems (span.append t.span) (id :: alternatives) rest

end Reader

/-- Reads a tree from a stream of characters. -/
def Tree.read (source : Source) : Except (Located DocumentFault) Tree := do
  let items := (Lexer.ofSource source).items
  let (root, s) ← (Reader.readItems .origin [] items).run ⟨.empty, 0⟩
  return { s.tree with root := some root }

/-- Reads a tree from a text. -/
def Tree.ofString (s : String) : Except (Located DocumentFault) Tree := read (.ofChars s.toList)

end PositionAutomata
