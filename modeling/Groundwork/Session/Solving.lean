import Groundwork.Listing
import Groundwork.Session

/-!
# Deciding an instance

Assumptions are ground atoms, with a dash before one that is assumed to be false.
They hold for one decision only.  Models and cores are given back as ground
atoms.
-/

namespace Groundwork.Session

variable {β : Type}

/-- The ground atom and the polarity of an assumption. -/
def readAssumption (assumption : String) : String × Bool :=
  match Text.trim assumption.toList with
  | '-' :: rest => (String.ofList (Text.trim rest), false)
  | atom => (String.ofList atom, true)

/-- The literal of an assumption. -/
def assumptionLiteral (atoms : AtomTable) (assumption : String) : Except ModelError Literal :=
  let (atom, polarity) := readAssumption assumption
  match atoms.literal? atom polarity with
  | some l => .ok l
  | none => .error (.unknownAtom atom)

/-- The assumption that a literal stands for. -/
def literalText? (atoms : AtomTable) (l : Literal) : Option String :=
  (atoms.text? (Literal.atom l)).map fun text =>
    if Literal.polarity l then text else "-" ++ text

/-- The ground atoms of a model with their values, in its order.  Literals without a
ground atom are left out. -/
def modelAtoms (s : Session β) (model : List Literal) : List (String × Bool) :=
  model.filterMap fun l =>
    (s.atoms.text? (Literal.atom l)).map fun text => (text, Literal.polarity l)

/-- Lists a model without its comparisons, in the width of the options. -/
def render (s : Session β) (model : List Literal) (withFalse : Bool) : String :=
  Listing.render s.atoms model withFalse false s.options.renderWidth.value

/-- The argument tuples of true atoms of a model. -/
def tuples (s : Session β) (model : List Literal) (names : List String) : List (List String) :=
  Listing.tuples s.atoms model names

variable [Backend β]

/-- Decides the instance under assumptions.  Returns whether it has a model, and the
model. -/
def solveWith (assumptions : List String) : SessionM β (Bool × List Literal) := do
  let atoms := (← get).atoms
  let literals ← orFail .model (assumptions.mapM (assumptionLiteral atoms))
  modify fun s =>
    { s with
      counters := { s.counters with solves := s.counters.solves + 1 }
      assumptions := assumptions.map Text.strip }
  let (answer, backend) := Backend.solve (← get).backend literals
  modify fun s => { s with backend }
  match ← orFail .backend answer with
  | .satisfiable =>
    modify fun s => { s with stage := .satisfiable }
    return (true, ← orFail .backend (Backend.model (← get).backend))
  | .unsatisfiable =>
    modify fun s => { s with stage := .unsatisfiable }
    return (false, [])
  | .unknown =>
    modify fun s => { s with stage := .input }
    return (false, [])

/-- Decides the instance. -/
def solve : SessionM β (Bool × List Literal) :=
  solveWith []

/-- The assumptions of the last decision that cannot hold together, if it found no
model.  There are none if the clauses alone have no model. -/
def core (s : Session β) : Except Failure (List String) :=
  if s.stage = .unsatisfiable then
    .ok ((Backend.core s.backend).filterMap (literalText? s.atoms))
  else .error (.model .noSolve)

end Groundwork.Session
