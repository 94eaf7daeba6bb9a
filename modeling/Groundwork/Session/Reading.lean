import Groundwork.Session.Symbols

/-!
# Reading programs into a session

The declarations of a program are applied to the session in their order, and its
rules are registered.  What cannot be read or applied is noted.
-/

namespace Groundwork

/-- What is noted when a program is read into a session. -/
inductive Diagnostic where
  /-- A statement or a declaration that cannot be read. -/
  | parse (e : ParseError)
  /-- A declaration that cannot be applied.  Its constants before the failure are
  applied, and those after it are not. -/
  | declaration (d : Declaration) (failure : Failure)
deriving DecidableEq, Repr

/-- The line of what is noted, if it is known. -/
def Diagnostic.line? : Diagnostic → Option Nat
  | .parse e => some e.line
  | .declaration _ _ => none

def Diagnostic.message : Diagnostic → String
  | .parse e => e.message
  | .declaration d failure => toString d ++ ": " ++ failure.message

namespace Session

variable {β : Type}

/-- Applies a declaration. -/
def applyDeclaration : Declaration → SessionM β Unit
  | .cardinality sort count => discard (fillSort sort count)
  | .extension sort elements => elements.forM (addElement sort)
  | .typing signature => addSignature signature
  | .vars _ _ => pure ()

/-- Applies a declaration, and notes it if it fails. -/
def tryDeclaration (noted : Array Diagnostic) (d : Declaration) :
    SessionM β (Array Diagnostic) := do
  try
    applyDeclaration d
    return noted
  catch failure => return noted.push (.declaration d failure)

/-- Applies a program that was read, and returns what is noted of its declarations. -/
def applyProgram (program : Program) : SessionM β (List Diagnostic) := do
  let noted ← program.declarations.foldlM tryDeclaration #[]
  program.rules.forM addRule
  return noted.toList

/-- Reads a program, and returns what is noted of it: first what cannot be read, then
what cannot be applied. -/
def readProgram (s : Session β) (text : String) :
    Except Abort (Except Failure (List Diagnostic) × Session β) := do
  let (program, typings) ← Program.parse s.typings text
  let (noted, s) := (applyProgram program).run { s with typings }
  return (noted.map (program.diagnostics.map .parse ++ ·), s)

end Session

end Groundwork
