import PositionAutomata.Text.Category

/-
  Escaped text: how characters are written inside strings, charsets and
  labels.

  A backslash, a carriage return, a line feed and a tab have short escapes,
  every other control character is written by its two hexadecimal digits, and
  all else stands for itself. `encode` is this rule for a text. `quoted` is the
  text between double quotes, where a double quote is escaped too and a
  control character is written by its code in braces.
-/

namespace PositionAutomata.Text

/-- The lower-case hexadecimal digits of `n`, filled with zeros to `width`. -/
def hexDigits (width n : Nat) : List Char :=
  (Nat.toDigits 16 n).leftpad width '0'

/-- A character as it is written in an escaped text. -/
def encodeChar (c : Char) : List Char :=
  if c = '\\' then ['\\', '\\']
  else if c = '\r' then ['\\', 'r']
  else if c = '\n' then ['\\', 'n']
  else if c = '\t' then ['\\', 't']
  else if isControl c then '\\' :: 'x' :: hexDigits 2 c.toNat
  else [c]

/-- The escaped form of a text. -/
def encode (cs : List Char) : List Char := cs.flatMap encodeChar

/-- A character as it is written between double quotes. -/
def quotedChar (c : Char) : List Char :=
  if c = '"' then ['\\', '"']
  else if c = '\x00' then ['\\', '0']
  else if isControl c && !(['\r', '\n', '\t'].contains c) then
    ['\\', 'u', '\x7b'] ++ hexDigits 1 c.toNat ++ ['\x7d']
  else encodeChar c

/-- A text between double quotes. -/
def quoted (s : String) : String :=
  String.ofList ('"' :: s.toList.flatMap quotedChar ++ ['"'])

theorem encode_append (s t : List Char) : encode (s ++ t) = encode s ++ encode t :=
  List.flatMap_append

theorem encodeChar_of_plain {c : Char} (h : isControl c = false) (hb : c ≠ '\\') :
    encodeChar c = [c] := by
  have hr : c ≠ '\r' := by rintro rfl; exact absurd h (by decide)
  have hn : c ≠ '\n' := by rintro rfl; exact absurd h (by decide)
  have ht : c ≠ '\t' := by rintro rfl; exact absurd h (by decide)
  simp [encodeChar, hb, hr, hn, ht, h]

end PositionAutomata.Text
