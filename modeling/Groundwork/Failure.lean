import Groundwork.Literal
import Groundwork.Text.Quoted

/-!
# What can go wrong

Each part of the library has its own causes of failure.  A `Failure` is a cause
from any part, and `Failure.message` is the one place where causes are worded.

Faults in the text of a program are not failures: they are noted beside what
could be read.  An unsatisfiable instance is not a failure either.
-/

namespace Groundwork

/-- Why a backend refuses a call. -/
inductive BackendError where
  /-- A clause or a list of assumptions holds zero. -/
  | zeroLiteral
  /-- There is no model to give. -/
  | noModel
deriving DecidableEq, Repr

/-- Why a document gives no instance. -/
inductive DocumentError where
  /-- The text is not a document. -/
  | unreadable
  /-- The literal or the predicate of an atom does not fit the other ones. -/
  | corruptLiteralMap (atom : String)
  /-- A clause has a literal whose atom has no name. -/
  | unmappedLiteral (literal : Literal)
deriving DecidableEq, Repr

/-- Why rules cannot be grounded. -/
inductive GroundError where
  /-- A term is neither a variable of the rule nor a constant of some sort. -/
  | unknownVariableSort (term : String)
  /-- A sort is not declared. -/
  | unknownSort (sort : String)
  /-- A function has no value on a constant. -/
  | unboundFunctionApplication (domain function : String)
  /-- A sort is restricted to a constant which it does not hold. -/
  | restrictionOutsideSort (sort constant : String)
  /-- A rule needs more bindings than are permitted. -/
  | bindingLimit (required limit : Nat)
  /-- The time for a pass is used up. -/
  | timeUp
  /-- The pass was cancelled. -/
  | cancelled
  /-- No further atom can be written as a literal. -/
  | atomsExhausted
deriving DecidableEq, Repr

/-- Why a question about models has no answer. -/
inductive ModelError where
  /-- No atom has the name. -/
  | unknownAtom (atom : String)
  /-- The instance has changed since it was last decided, or was not unsatisfiable. -/
  | noSolve
deriving DecidableEq, Repr

/-- Why sorts cannot be populated. -/
inductive SortError where
  /-- The sort already holds the constant. -/
  | duplicateConstant (sort constant : String)
  /-- The name is not a legal token. -/
  | illegalName (name : String)
  /-- No sort has the name. -/
  | unknownSort (sort : String)
  /-- The sort would hold more constants than are permitted. -/
  | sortLimit (sort : String) (required limit : Nat)
  /-- The value of a function lies outside of the sort to which it is typed. -/
  | imageOutsideSort (function image sort : String)
deriving DecidableEq, Repr

/-- Why a statement is not a rule. -/
inductive RuleDefect where
  /-- More than one arrow. -/
  | implicationCount (count : Nat)
  /-- A comment delimiter without a partner. -/
  | unmatchedComment
  /-- An empty body, head, atom or term. -/
  | emptySegment
  /-- Both a disjunction and another connective. -/
  | mixedConnectives
  /-- Parentheses within parentheses, or unbalanced. -/
  | nesting
  /-- An atom that is neither a predicate with arguments nor a comparison. -/
  | atomShape (atom : String)
  /-- A variable annotated with two sorts. -/
  | conflictingSort (variableName first second : String)
  /-- A name or a term that is not made of legal tokens. -/
  | illegalToken (text : String)
deriving DecidableEq, Repr

/-- A fault in the text of a program, with its line counted from one. -/
inductive ParseError where
  /-- A declaration of no known form. -/
  | malformedDeclaration (line : Nat) (text : String)
  /-- A statement that is not a rule. -/
  | malformedRule (line : Nat) (defect : RuleDefect)
deriving DecidableEq, Repr

/-- A cause of failure from any part of the library. -/
inductive Failure where
  | backend (cause : BackendError)
  | document (cause : DocumentError)
  | ground (cause : GroundError)
  | model (cause : ModelError)
  | parse (cause : ParseError)
  | sort (cause : SortError)
deriving DecidableEq, Repr

open Text (quote record tagged)

def BackendError.message : BackendError → String
  | .zeroLiteral => "ZeroLiteral"
  | .noModel => "NoModel"

def DocumentError.message : DocumentError → String
  | .unreadable => "Json"
  | .corruptLiteralMap atom => tagged "CorruptLiteralMap" (quote atom)
  | .unmappedLiteral literal => tagged "UnmappedLiteral" (toString literal)

def GroundError.message : GroundError → String
  | .unknownVariableSort term => s!"'{term}' has no sort and is not a declared constant"
  | .unknownSort sort => s!"sort '{sort}' is not declared"
  | .unboundFunctionApplication domain function => s!"no value for {domain}.{function}"
  | .restrictionOutsideSort sort constant => s!"'{constant}' is not an element of sort '{sort}'"
  | .bindingLimit required limit => s!"{required} bindings required, but the limit is {limit}"
  | .timeUp => "time limit exceeded"
  | .cancelled => "cancelled"
  | .atomsExhausted => "atoms exhausted"

def ModelError.message : ModelError → String
  | .unknownAtom atom => tagged "UnknownAtom" (quote atom)
  | .noSolve => "NoSolve"

def SortError.message : SortError → String
  | .duplicateConstant sort constant =>
    record "DuplicateConstant" [("sort", quote sort), ("constant", quote constant)]
  | .illegalName name => tagged "IllegalName" (quote name)
  | .unknownSort sort => tagged "UnknownSort" (quote sort)
  | .sortLimit sort required limit =>
    record "SortLimit"
      [("sort", quote sort), ("required", toString required), ("limit", toString limit)]
  | .imageOutsideSort function image sort =>
    record "ImageOutsideSort"
      [("function", quote function), ("image", quote image), ("sort", quote sort)]

def RuleDefect.message : RuleDefect → String
  | .implicationCount count => tagged "ImplicationCount" (toString count)
  | .unmatchedComment => "UnmatchedComment"
  | .emptySegment => "EmptySegment"
  | .mixedConnectives => "MixedConnectives"
  | .nesting => "Nesting"
  | .atomShape atom => tagged "AtomShape" (quote atom)
  | .conflictingSort name first second =>
    record "ConflictingSort"
      [("variable", quote name), ("first", quote first), ("second", quote second)]
  | .illegalToken text => tagged "IllegalToken" (quote text)

/-- The line of a fault. -/
def ParseError.line : ParseError → Nat
  | .malformedDeclaration line _ => line
  | .malformedRule line _ => line

def ParseError.message : ParseError → String
  | .malformedDeclaration line text => s!"line {line}: malformed declaration '{text}'"
  | .malformedRule line defect => s!"line {line}: {defect.message}"

/-- The wording of a failure, which begins with the part that failed. -/
def Failure.message : Failure → String
  | .backend cause => "Backend error: " ++ cause.message
  | .document cause => "Document error: " ++ cause.message
  | .ground cause => "Grounding error: " ++ cause.message
  | .model cause => "Model error: " ++ cause.message
  | .parse cause => "Parse error: " ++ cause.message
  | .sort cause => "Sort error: " ++ cause.message

end Groundwork
