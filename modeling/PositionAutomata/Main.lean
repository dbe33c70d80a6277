import PositionAutomata.Command

/-
  The program: reads the expression file, runs the command and writes what it
  answers.
-/

open PositionAutomata

/-- The text of the expression file, or why it cannot be read. A hyphen is the
standard input. -/
def readInput (file : String) : IO (Except String String) := do
  try
    if file = "-" then return .ok (← (← IO.getStdin).readToEnd)
    else return .ok (← IO.FS.readFile file)
  catch
    | .noFileOrDirectory _ code _ =>
      return .error ("No such file or directory (os error " ++ code.toNat.repr ++ ")")
    | e => return .error e.toString

/-- Runs the program with the given arguments. -/
def main (args : List String) : IO UInt32 := do
  match Invocation.parse args with
  | none =>
    IO.eprintln "usage: [options] FILE (dot | array [-e ENCODING] | match [-l] INPUT...)"
    return 1
  | some call =>
    let outcome := call.run (← readInput call.file)
    IO.print outcome.output
    if let some d := outcome.failure then IO.eprint (d.render true "\n")
    return outcome.status.toUInt32
