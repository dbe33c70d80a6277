import PositionAutomata.Document.Span
import PositionAutomata.Text.Lines

/-
  Diagnostics: what is shown to a user about an input.

  A diagnostic has a title and may name its source, highlight spans of it and
  carry notes. The place shown is where the highlights start. Highlighted text
  is shown between two bars with a margin for line numbers; drawing it is left
  to the caller, who passes the excerpt.
-/

namespace PositionAutomata

/-- How a piece of a diagnostic is set off when colours are on. -/
inductive Style where
  | bold
  | yellow
  | red
  | blue
  | green
  deriving DecidableEq

namespace Style

/-- The attributes of the style; all are bold. -/
def attributes : Style → String
  | bold => "1"
  | yellow => "1;33"
  | red => "1;31"
  | blue => "1;34"
  | green => "1;32"

/-- A text in a style. Without colours it stays plain. -/
def paint (colors : Bool) (style : Style) (text : String) : String :=
  if colors then "\x1b[" ++ style.attributes ++ "m" ++ text ++ "\x1b[0m" else text

end Style

/-- What kind of diagnostic it is. -/
inductive Severity where
  | warning
  | error
  deriving DecidableEq

/-- The name of a severity and its style. -/
def Severity.label : Severity → String × Style
  | warning => ("warning", .yellow)
  | error => ("error", .red)

/-- What kind of note it is. -/
inductive NoteKind where
  | note
  | help
  deriving DecidableEq

/-- The name of a kind of note and its style. -/
def NoteKind.label : NoteKind → String × Style
  | note => ("note", .bold)
  | help => ("help", .green)

/-- A diagnostic. -/
structure Diagnostic where
  severity : Severity
  title : String
  source : Option String := none
  highlights : List Span := []
  notes : List (NoteKind × String) := []

namespace Diagnostic

/-- The region of the highlights: the first one, appended by the others in the
order in which they were added. -/
def span (d : Diagnostic) : Option Span :=
  match d.highlights with
  | [] => none
  | first :: rest => some (rest.foldl Span.append first)

/-- The one of two spans that starts later or, if they start at one place, the one
whose last character starts later. -/
def later (s t : Span) : Span :=
  if s.start.before t.start || (s.start = t.start && s.last.before t.last) then t else s

/-- Width of the margin: three columns more than the digits of the greatest line
number that may be shown, which is two lines below the end of the highlight that
starts last. Lines are counted from one here. -/
def marginWidth (d : Diagnostic) : Nat :=
  match d.highlights with
  | [] => 0
  | first :: rest => 3 + ((rest.foldl later first).last.line + 3).repr.length

/-- What every line after the title begins with. -/
def indent (d : Diagnostic) : String := String.ofList (List.replicate (d.marginWidth - 2) ' ')

/-- The line of the title. -/
def titleLine (d : Diagnostic) (colors : Bool) : String :=
  let (name, style) := d.severity.label
  style.paint colors name ++ Style.paint colors .bold ":" ++ " " ++
    Style.paint colors .bold d.title ++ "\n"

/-- The line of the source, with the place at which the highlights start. -/
def sourceLine (d : Diagnostic) (colors : Bool) (source : String) : String :=
  let place := d.span.elim "" fun s =>
    ":" ++ (s.start.line + 1).repr ++ ":" ++ (s.start.column + 1).repr
  d.indent ++ Style.paint colors .blue "-->" ++ " " ++ source ++ place ++ "\n"

/-- The excerpt between its bars. -/
def excerptLines (d : Diagnostic) (colors : Bool) (excerpt : String) : String :=
  let bar := d.indent ++ Style.paint colors .blue "|"
  bar ++ excerpt ++ bar ++ "\n"

/-- The lines of a note, the kind before the first. -/
def noteLines (d : Diagnostic) (colors : Bool) : NoteKind × String → String
  | (kind, content) =>
    let (name, style) := kind.label
    match (Text.lines content.toList).map String.ofList with
    | [] => ""
    | first :: rest =>
      d.indent ++ "= " ++ style.paint colors name ++ ": " ++ first ++ "\n" ++
        String.join (rest.map fun line => d.indent ++ "  " ++ line ++ "\n")

/-- The text of a diagnostic around the given excerpt of its source. -/
def render (d : Diagnostic) (colors : Bool) (excerpt : String) : String :=
  d.titleLine colors ++ d.source.elim "" (d.sourceLine colors) ++
    (if d.highlights.isEmpty then "" else d.excerptLines colors excerpt) ++
    String.join (d.notes.map (d.noteLines colors))

end Diagnostic

end PositionAutomata
