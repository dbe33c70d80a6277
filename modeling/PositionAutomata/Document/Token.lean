import PositionAutomata.Charset.Basic
import PositionAutomata.Document.Span

/-
  Tokens of a document.

  A document is a list of tokens, and a group is a token that holds tokens. The
  text of a token is written on one line, the tokens of a group one blank
  apart.
-/

namespace PositionAutomata

/-- A token and where it stands. -/
inductive Token where
  | group (span : Span) (items : List Token)
  | string (span : Span) (text : List Char)
  | charset (span : Span) (set : Charset)
  | ident (span : Span) (name : List Char)

namespace Token

/-- Where the token stands. -/
def span : Token → Span
  | group s _ => s
  | string s _ => s
  | charset s _ => s
  | ident s _ => s

mutual

/-- The text of a token. -/
def chars : Token → List Char
  | group _ items => '(' :: charsOfAll items ++ [')']
  | string _ text => '"' :: Text.encode text ++ ['"']
  | charset _ set => set.chars
  | ident _ name => name

/-- The texts of some tokens, one blank apart. -/
def charsOfAll : List Token → List Char
  | [] => []
  | [t] => t.chars
  | t :: rest => t.chars ++ ' ' :: charsOfAll rest

end

end Token

end PositionAutomata
