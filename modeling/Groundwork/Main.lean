import Groundwork.CommandLine

/-!
# The program

Everything that a run prints is computed by `CommandLine.respond`.  What remains
is to read the file it asks for, and to print.
-/

namespace Groundwork.CommandLine

/-- The text of a file, or why it cannot be read. -/
def readText (path : String) : IO (Except String String) := do
  try
    return .ok (← IO.FS.readFile path)
  catch
    | .noFileOrDirectory .. => return .error missingFile
    | e => return .error (toString e)

end Groundwork.CommandLine

open Groundwork in
/-- Runs the command line. -/
def main (arguments : List String) : IO UInt32 := do
  let path := ((Invocation.ofArguments? arguments).bind (·.program)).getD ""
  let text ← CommandLine.readText path
  let outcome := CommandLine.respond (fun _ => text) arguments
  IO.print outcome.output
  return outcome.status.toUInt32
