import Groundwork.Program.Declaration
import Groundwork.Program.Paragraph
import Groundwork.Program.Statement

/-!
# Programs

A program is a sequence of paragraphs.  The lines of a paragraph that are
declarations are read one by one; its other lines are joined to one statement.
What cannot be read is skipped and noted with its line, so that reading gives
the well-formed part of a program.

Typings of variables are kept from one program to the next.
-/

namespace Groundwork

/-- The well-formed part of a program, and the faults of the rest. -/
structure Program where
  declarations : List Declaration := []
  rules : List Rule := []
  /-- The faults, in order of line. -/
  diagnostics : List ParseError := []
deriving DecidableEq, Repr

/-- Why reading a program stops without a result. -/
inductive Abort where
  /-- Two separators of a disjunction overlap. -/
  | overlappingSeparators
deriving DecidableEq, Repr

/-- The typings with those of a declaration.  A variable has the sort that was declared
for it last. -/
def Typings.declare (typings : Typings) : Declaration → Typings
  | .vars names sort => names.foldl (fun typings name => typings.insert name sort) typings
  | _ => typings

namespace Program

/-- What has been read of a program, and the typings known by then. -/
structure Progress where
  typings : Typings
  declarations : Array Declaration := #[]
  rules : Array Rule := #[]
  /-- The faults, in the order in which they were met. -/
  diagnostics : Array ParseError := #[]

namespace Progress

/-- Notes a fault. -/
def note (p : Progress) (e : ParseError) : Progress :=
  { p with diagnostics := p.diagnostics.push e }

/-- Adds a declaration, which may type variables. -/
def addDeclaration (p : Progress) (d : Declaration) : Progress :=
  { p with typings := p.typings.declare d, declarations := p.declarations.push d }

/-- Adds a rule. -/
def addRule (p : Progress) (r : Rule) : Progress :=
  { p with rules := p.rules.push r }

/-- Reads a line that is meant as a declaration. -/
def readDeclaration (p : Progress) (line : Line) : Progress :=
  match Declaration.read? line.text with
  | some d => p.addDeclaration d
  | none => p.note (.malformedDeclaration line.number (String.ofList line.text))

/-- Reads the lines of a paragraph that make up its statement, if there are any. -/
def readStatement (p : Progress) : List Line → Except Abort Progress
  | [] => .ok p
  | first :: rest =>
    match Statement.read p.typings ([' '].intercalate ((first :: rest).map (·.text))) with
    | .ok rule => .ok (p.addRule rule)
    | .error (.defect defect) => .ok (p.note (.malformedRule first.number defect))
    | .error .overlap => .error .overlappingSeparators

/-- Reads a paragraph, its declarations before its statement. -/
def readParagraph (p : Progress) (lines : List Line) : Except Abort Progress :=
  let declared := lines.filter fun line => Declaration.isDeclaration line.text
  let stated := lines.filter fun line => !Declaration.isDeclaration line.text
  (declared.foldl readDeclaration p).readStatement stated

/-- What has been read as a program, with its faults in order of line. -/
def toProgram (p : Progress) : Program where
  declarations := p.declarations.toList
  rules := p.rules.toList
  diagnostics := p.diagnostics.toList.mergeSort fun a b => a.line ≤ b.line

end Progress

/-- Reads a program under some typings, and returns the typings known after it. -/
def parse (typings : Typings) (text : String) : Except Abort (Program × Typings) := do
  let { paragraphs, unmatched } := paragraphs text.toList
  let progress ← paragraphs.foldlM Progress.readParagraph { typings }
  let progress :=
    match unmatched with
    | some line => progress.note (.malformedRule line .unmatchedComment)
    | none => progress
  return (progress.toProgram, progress.typings)

/-- Reads a program under no typings, and refuses it with its first fault if it
has any. -/
def parseStrict (text : String) : Except Abort (Except ParseError Program) := do
  let (program, _) ← parse ∅ text
  match program.diagnostics with
  | [] => return .ok program
  | first :: _ => return .error first

/-- The number of rules of a kind. -/
def countOf (p : Program) (kind : RuleKind) : Nat :=
  p.rules.countP fun rule => rule.kind == kind

end Program

end Groundwork
