import PositionAutomata.Document.Token

/-
  What can be wrong with a document.

  A `LexicalFault` keeps a token from being read, a `DocumentFault` keeps the
  tokens from being an expression. Both come with the span to which they apply.
-/

namespace PositionAutomata

/-- A value that applies to a span. -/
structure Located (α : Type) where
  value : α
  span : Span

/-- Why no token can be read. -/
inductive LexicalFault where
  /-- The characters could not be had. -/
  | input (reason : String)
  | missingCloser
  | invalidChar
  | invalidRange
  | incompleteString
  | incompleteCharset
  | unknownClass (name : String)
  | unexpected (c : Char)

namespace LexicalFault

/-- The fault in words. -/
def message : LexicalFault → String
  | input reason => "I/O: " ++ reason
  | missingCloser => "missing `)`"
  | invalidChar => "invalid char"
  | invalidRange => "invalid character range"
  | incompleteString => "incomplete string"
  | incompleteCharset => "incomplete character set"
  | unknownClass name => "unknown character class `" ++ name ++ "`"
  | unexpected c => "unexpected character `" ++ c.toString ++ "`"

end LexicalFault

/-- Why the tokens are no expression. -/
inductive DocumentFault where
  | lexical (fault : LexicalFault)
  | unexpectedToken (t : Token)
  | unknownForm (name : String)
  /-- The form takes another number of arguments. -/
  | arity (name : String) (expected : Nat)
  | invalidBound (text : String)
  | unknownClass (name : String)
  | notRepetition
  | noExpression

namespace DocumentFault

/-- The fault in words. -/
def message : DocumentFault → String
  | lexical fault => fault.message
  | unexpectedToken t => "unexpected `" ++ String.ofList t.chars ++ "`"
  | unknownForm name => "unknown form `" ++ name ++ "`"
  | arity name 1 => "`" ++ name ++ "` expects 1 argument"
  | arity name n => "`" ++ name ++ "` expects " ++ n.repr ++ " arguments"
  | invalidBound text => "invalid repetition bound `" ++ text ++ "`"
  | unknownClass name => "unknown character class `" ++ name ++ "`"
  | notRepetition => "only repetitions can be lazy"
  | noExpression => "no expression"

end DocumentFault

end PositionAutomata
