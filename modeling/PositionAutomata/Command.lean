import PositionAutomata.Automaton.Drawing
import PositionAutomata.Automaton.Packed
import PositionAutomata.Automaton.Trace
import PositionAutomata.Construction.Build
import PositionAutomata.Diagnostic
import PositionAutomata.Document.Reader

/-
  The command line, apart from reading and writing.

    [options] FILE dot
    [options] FILE array [-e shortest|ranges|codepoints]
    [options] FILE match [-l] INPUT ...

  `Invocation.parse` understands the arguments. `Invocation.run` builds the
  automaton of the text of the file and answers what is to be written: the
  result, or a diagnostic if there is none.
-/

namespace PositionAutomata

/-- What is to be done with the automaton. -/
inductive Task where
  | draw
  /-- Without an encoding, the shorter one is used. -/
  | pack (encoding : Option Packed.Encoding)
  | matchInputs (longest : Bool) (inputs : List String)

/-- The arguments of a call. -/
structure Invocation where
  config : Config
  file : String
  task : Task

/-- The end of a call: what is written, and the diagnostic of a failure. -/
structure Outcome where
  output : String
  failure : Option Diagnostic

/-- The status of the call: zero unless it failed. -/
def Outcome.status (o : Outcome) : Nat := if o.failure.isSome then 1 else 0

namespace Invocation

/-! ## Arguments -/

/-- Whether an argument is an option that only asks for more messages. -/
def isVerbosity (arg : String) : Bool :=
  arg = "--verbose" ||
    match arg.toList with
    | '-' :: 'v' :: rest => rest.all (· = 'v')
    | _ => false

/-- The options with one more of them. -/
def option? (c : Config) : String → Option Config
  | "--lexer" => some { c with lexer := true }
  | "--no-lazy" => some { c with lazy := false }
  | "--no-captures" => some { c with captures := false }
  | "--no-expand" => some { c with expand := false }
  | "--no-prune" => some { c with prune := false }
  | "--no-trim" => some { c with trim := false }
  | arg => if isVerbosity arg then some c else none

/-- Whether an argument stands for itself; a lone hyphen does. -/
def isPlain (arg : String) : Bool := arg = "-" || arg.toList.head? != some '-'

/-- The options up to the first plain argument. -/
def options (c : Config) : List String → Option (Config × String × List String)
  | [] => none
  | arg :: rest => if isPlain arg then some (c, arg, rest) else do options (← option? c arg) rest

/-- The encoding of that name; `shortest` names none in particular. -/
def encoding? : String → Option (Option Packed.Encoding)
  | "shortest" => some none
  | "ranges" => some (some .ranges)
  | "codepoints" => some (some .codepoints)
  | _ => none

/-- The name of an encoding that is written together with its option. -/
def attached? (arg : String) : Option String :=
  ["--encoding=", "-e=", "-e"].findSome? fun opt => (arg.dropPrefix? opt).map (·.toString)

/-- The encoding among the arguments of `array`. -/
def packArgs (encoding : Option Packed.Encoding) : List String → Option (Option Packed.Encoding)
  | [] => some encoding
  | "-e" :: name :: rest => do packArgs (← encoding? name) rest
  | "--encoding" :: name :: rest => do packArgs (← encoding? name) rest
  | arg :: rest =>
    if isVerbosity arg then packArgs encoding rest
    else do packArgs (← encoding? (← attached? arg)) rest

/-- The inputs among the arguments of `match`, and whether the longest match is
asked for. After `--` every argument is an input. -/
def matchArgs (longest : Bool) : List String → Option (Bool × List String)
  | [] => some (longest, [])
  | arg :: rest =>
    if arg = "--" then some (longest, rest)
    else if arg = "-l" || arg = "--longest" then matchArgs true rest
    else if isPlain arg then (matchArgs longest rest).map fun (l, inputs) => (l, arg :: inputs)
    else if isVerbosity arg then matchArgs longest rest
    else none

/-- The task of that name with its arguments. -/
def task? (args : List String) : String → Option Task
  | "dot" => if args.all isVerbosity then some .draw else none
  | "array" => (packArgs none args).map .pack
  | "match" => do
    let (longest, inputs) ← matchArgs false args
    if inputs.isEmpty then none else some (.matchInputs longest inputs)
  | _ => none

/-- The call that the arguments ask for. -/
def parse (args : List String) : Option Invocation := do
  let (c, file, rest) ← options {} args
  let (c, name, rest) ← options c rest
  return ⟨c, file, ← task? rest name⟩

/-! ## Results -/

/-- A symbol with what is said about it, after the text to which it belongs. -/
def matchLine (input : String) (result : Option String) : String :=
  Text.quoted input ++ ": " ++ result.getD "no match" ++ "\n"

/-- The line of an input that is matched as a whole. -/
def wholeLine (a : Automaton) (input : String) : String :=
  let text := input.toList
  matchLine input <| (a.run text).map fun symbol =>
    let events := ((a.captures text).getD []).map fun (i, e) =>
      String.ofList e.chars ++ "@" ++ i.repr
    symbol.repr ++ if events.isEmpty then "" else " [" ++ ", ".intercalate events ++ "]"

/-- The line of an input of which the longest match is asked for. -/
def longestLine (a : Automaton) (input : String) : String :=
  let text := input.toList
  matchLine input <| (a.longestPrefix text).map fun (symbol, i) =>
    symbol.repr ++ " (" ++ Text.quoted (String.ofList (text.take i)) ++ ")"

/-- What a task writes. -/
def perform (a : Automaton) : Task → String
  | .draw => Drawing.text a
  | .pack encoding =>
    ", ".intercalate ((Packed.encode a (encoding.getD (Packed.shortest a))).map Int.repr) ++ "\n"
  | .matchInputs longest inputs =>
    String.join (inputs.map (if longest then longestLine a else wholeLine a))

/-! ## Failures -/

/-- The diagnostic of an expression file that cannot be read. -/
def inputDiagnostic (reason : String) : Diagnostic := { severity := .error, title := reason }

/-- The diagnostic of a document that is no expression. -/
def documentDiagnostic (file : String) (f : Located DocumentFault) : Diagnostic :=
  { severity := .error, title := f.value.message, source := some file, highlights := [f.span] }

/-- The diagnostic of a tree without automaton. -/
def treeDiagnostic (file : String) (e : Failure) : Diagnostic :=
  { severity := .error, title := e.title, source := some file
    notes :=
      (.note, e.message) ::
        if e = .rootNotAlternation then [(.help, "use `(or ...)` or list several expressions")]
        else [] }

/-- The automaton of the text of the file, or of the reason why it could not be
read. -/
def automaton (call : Invocation) (input : Except String String) : Except Diagnostic Automaton := do
  let text ← input.mapError inputDiagnostic
  let tree ← (Tree.ofString text).mapError (documentDiagnostic call.file)
  (Automaton.ofTree tree call.config).mapError (treeDiagnostic call.file)

/-- Runs the call on the text of its file, or the reason why it could not be
read. -/
def run (call : Invocation) (input : Except String String) : Outcome :=
  match call.automaton input with
  | .ok a => ⟨perform a call.task, none⟩
  | .error d => ⟨"", some d⟩

end Invocation

end PositionAutomata
