import Groundwork.Text.Count
import Groundwork.Text.Cut

/-!
# Arguments of the command line

The arguments name one program, and options in any order.  Options are written
with two dashes.  Flags take no value and are given at most once.  The other
options take a value, as the next argument or behind an equals sign, and may be
given again.  After the argument `--` there are no more options.

The whole of the arguments is refused if any of them is out of place.
-/

namespace Groundwork

/-- An option without a value. -/
inductive Flag where
  /-- Constants with different names are different. -/
  | una
  /-- False atoms are listed with a model. -/
  | showFalse
  /-- The document is printed in place of the model. -/
  | json
  /-- The clauses are printed in DIMACS form in place of the model. -/
  | dimacs
  /-- Rules whose variables have the same sorts share an enumeration. -/
  | groupRules
  /-- Rules are grounded by several workers. -/
  | parallel
deriving DecidableEq, Repr

/-- An option with a value. -/
inductive Choice where
  /-- Fills a sort with constants before the program is read. -/
  | fill
  /-- Assumes a ground atom. -/
  | assume
  /-- Prints the tuples of a relation in place of the model. -/
  | relations
deriving DecidableEq, Repr

/-- The flag with a name. -/
def Flag.ofName? (name : List Char) : Option Flag :=
  [("una", Flag.una), ("show-false", .showFalse), ("json", .json), ("dimacs", .dimacs),
    ("group-rules", .groupRules), ("parallel", .parallel)].lookup (String.ofList name)

/-- The option with a name, if it takes a value. -/
def Choice.ofName? (name : List Char) : Option Choice :=
  [("fill", Choice.fill), ("assume", .assume), ("relations", .relations)].lookup
    (String.ofList name)

/-- Whether an argument is written as an option.  A single dash is not. -/
def isOption (argument : String) : Bool :=
  match argument.toList with
  | '-' :: _ :: _ => true
  | _ => false

/-- Whether an argument may be the value of an option.  Assumptions may begin with a
dash, and so may take the form of an option. -/
def Choice.accepts : Choice → String → Bool
  | .assume, _ => true
  | .fill, argument | .relations, argument => !isOption argument

/-- What the arguments ask for. -/
structure Invocation where
  /-- The name of the file with the program. -/
  program : Option String := none
  fills : List (String × Nat) := []
  assumptions : List String := []
  relations : List String := []
  flags : List Flag := []
deriving DecidableEq, Repr

namespace Invocation

/-- Reads how a sort is filled: its name, an equals sign, and a count. -/
def readFill? (value : String) : Option (String × Nat) := do
  let (sort, count) ← Text.cut? '=' value.toList
  return (String.ofList sort, ← Text.count? count)

/-- Names the program.  There is one program, and its name is not empty. -/
def name? (v : Invocation) (argument : String) : Option Invocation :=
  if v.program.isNone && !argument.isEmpty then some { v with program := some argument }
  else none

/-- Raises a flag that is not raised yet. -/
def raise? (v : Invocation) (flag : Flag) : Option Invocation :=
  if v.flags.contains flag then none else some { v with flags := v.flags ++ [flag] }

/-- Gives an option a further value. -/
def choose? (v : Invocation) (choice : Choice) (value : String) : Option Invocation :=
  match choice with
  | .fill => (readFill? value).map fun fill => { v with fills := v.fills ++ [fill] }
  | .assume => some { v with assumptions := v.assumptions ++ [value] }
  | .relations => some { v with relations := v.relations ++ [value] }

/-- Takes an option that is complete in itself: a flag, or an option with its value
behind an equals sign. -/
def takeOption? (v : Invocation) (text : List Char) : Option Invocation :=
  match Text.cut? '=' text with
  | some (name, value) => do v.choose? (← Choice.ofName? name) (String.ofList value)
  | none => do v.raise? (← Flag.ofName? text)

/-- The option that an argument names, if its value is the next argument. -/
def awaiting? (argument : String) : Option Choice :=
  match argument.toList with
  | '-' :: '-' :: name => Choice.ofName? name
  | _ => none

/-- Takes an argument that is complete in itself. -/
def takeArgument? (v : Invocation) (argument : String) : Option Invocation :=
  match argument.toList with
  | '-' :: '-' :: text => v.takeOption? text
  | _ => if isOption argument then none else v.name? argument

/-- Reads arguments one by one. -/
def read? (v : Invocation) : List String → Option Invocation
  | [] => some v
  | argument :: rest =>
    if argument = "--" then rest.foldlM name? v
    else
      match awaiting? argument, rest with
      | none, rest => do (← v.takeArgument? argument).read? rest
      | some _, [] => none
      | some choice, value :: rest =>
        if choice.accepts value then do (← v.choose? choice value).read? rest else none

/-- What the arguments of a command line ask for, if they are in order. -/
def ofArguments? (arguments : List String) : Option Invocation := do
  let v ← read? {} arguments
  if v.program.isSome then some v else none

end Invocation

end Groundwork
