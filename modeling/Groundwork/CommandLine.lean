import Groundwork.CommandLine.Arguments
import Groundwork.Session.Reading
import Groundwork.Session.Recording
import Groundwork.Session.Solving
import Groundwork.Session.Unfolding

/-!
# The command line

The command line reads a program, grounds it, decides it, and prints what it
found.  Lines that begin with `c` are comments and the line that begins with `s`
is the verdict.  A failure is printed as a comment after what was printed before
it.
-/

namespace Groundwork

namespace CommandLine

/-- What a run leaves behind. -/
structure Outcome where
  /-- The exit code. -/
  status : Nat
  output : String
deriving DecidableEq, Repr

/-- Why a run ends early. -/
inductive Stop where
  | failure (cause : Failure)
  | abort (cause : Abort)
deriving DecidableEq, Repr

/-- The session of a run, and what was printed so far. -/
structure Run where
  session : Session Solver
  output : String := ""

abbrev RunM (α : Type) := ExceptT Stop (StateM Run) α

/-- Prints a text as it is. -/
def write (text : String) : RunM Unit :=
  modify fun r => { r with output := r.output ++ text }

/-- Prints a line. -/
def writeLine (line : String) : RunM Unit :=
  write (line ++ "\n")

/-- Does an operation on the session. -/
def onSession {α : Type} (operation : SessionM Solver α) : RunM α := do
  let (answer, session) := operation.run (← get).session
  modify fun r => { r with session }
  match answer with
  | .ok a => return a
  | .error failure => throw (.failure failure)

/-- Reads the program into the session, and returns what is noted of it. -/
def readProgram (text : String) : RunM (List Diagnostic) := do
  match Session.readProgram (← get).session text with
  | .ok (noted, session) =>
    modify fun r => { r with session }
    onSession (ExceptT.mk (pure noted))
  | .error cause => throw (.abort cause)

/-- Fills sorts, reads the program, and grounds it. -/
def ground (v : Invocation) (text : String) : RunM Unit := do
  -- Constants of fills come before those of the program.
  v.fills.forM fun (sort, count) => discard (onSession (Session.fillSort sort count))
  (← readProgram text).forM fun diagnostic => writeLine ("c Skipped " ++ diagnostic.message)
  if v.flags.contains .una then
    discard (onSession Session.assumeUniqueNames)
  let added ← onSession Session.unfoldInstance
  let session := (← get).session
  writeLine
    s!"c {session.rules.size} rules unfolded to {added} clauses over {session.atoms.size} atoms"

/-- Prints the model, or the tuples of the relations that were asked for. -/
def writeModel (v : Invocation) (model : List Literal) : RunM Unit := do
  let session := (← get).session
  if v.relations.isEmpty then
    writeLine (session.render model (v.flags.contains .showFalse))
  else
    (session.tuples model v.relations).forM fun tuple => writeLine (" ".intercalate tuple)

/-- Prints the assumptions that cannot hold together. -/
def writeCore : RunM Unit := do
  match (← get).session.core with
  | .ok core => writeLine ("c Failed assumptions: " ++ ", ".intercalate core)
  | .error failure => throw (.failure failure)

/-- Decides the instance and prints what was asked for. -/
def solve (v : Invocation) : RunM Unit := do
  let (satisfiable, model) ← onSession (Session.solveWith v.assumptions)
  let session := (← get).session
  writeLine ("s " ++ (toString session.verdict).toUpper)
  if v.flags.contains .json then
    writeLine session.document.toJsonPretty
  else if v.flags.contains .dimacs then
    write session.document.toDimacs
  else if satisfiable then
    writeModel v model
  else if !v.assumptions.isEmpty then
    writeCore

/-- The options that the flags ask for. -/
def options (v : Invocation) : Options where
  groupRules := v.flags.contains .groupRules
  parallelGrounding := v.flags.contains .parallel

/-- Runs an invocation on the text of its program. -/
def run (v : Invocation) (text : String) : Outcome :=
  let start : Run := { session := .ofOptions (options v) }
  let (answer, finish) := ((do ground v text; solve v) : RunM Unit).run start
  match answer with
  | .ok () => { status := 0, output := finish.output }
  | .error (.failure failure) =>
    { status := 2, output := finish.output ++ "c " ++ failure.message ++ "\n" }
  | .error (.abort _) => { status := 101, output := finish.output }

/-- Why a file cannot be read if there is none with its name. -/
def missingFile : String :=
  "No such file or directory (os error 2)"

/-- The outcome for arguments, where `files` gives the text of a file or says why it
cannot be read. -/
def respond (files : String → Except String String) (arguments : List String) : Outcome :=
  match Invocation.ofArguments? arguments with
  | some v =>
    let path := v.program.getD ""
    match files path with
    | .ok text => run v text
    | .error reason =>
      { status := 1, output := "c Failed to read " ++ Text.quote path ++ ": " ++ reason ++ "\n" }
  | none => { status := 2, output := "" }

end CommandLine

end Groundwork
