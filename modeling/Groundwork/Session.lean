import Groundwork.AtomTable
import Groundwork.Backend
import Groundwork.Host
import Groundwork.Options
import Groundwork.Program
import Groundwork.Solver
import Groundwork.ValueTable

/-!
# Sessions

A session holds all that belongs to one instance: its sorts and values, the rules
that wait to be grounded, the atoms and the clauses they were grounded to, and the
backend that holds the same clauses.

Sorts and values are populated first.  Atoms and clauses then grow with each pass
of grounding, and are only dropped when the instance is reset.
-/

namespace Groundwork

/-- What a session has gone through since it was made. -/
inductive Stage where
  /-- Nothing was put in yet. -/
  | configuration
  /-- Something was put in since the instance was last decided. -/
  | input
  /-- The instance was decided last, and has a model. -/
  | satisfiable
  /-- The instance was decided last, and has no model. -/
  | unsatisfiable
deriving DecidableEq, Repr

instance : ToString Stage where
  toString
    | .configuration => "Configuration"
    | .input => "Input"
    | .satisfiable => "Satisfiable"
    | .unsatisfiable => "Unsatisfiable"

/-- What is known of the instance at a stage. -/
def Stage.verdict : Stage → Verdict
  | .configuration | .input => .unknown
  | .satisfiable => .satisfiable
  | .unsatisfiable => .unsatisfiable

/-- What a session has done so far. -/
structure Counters where
  rulesUnfolded : Nat := 0
  /-- The bindings of plain variables that were enumerated. -/
  bindings : Nat := 0
  /-- The clauses that the backend took, tautologies included. -/
  clauses : Nat := 0
  tautologies : Nat := 0
  solves : Nat := 0
deriving DecidableEq, Repr

/-- An instance with its backend. -/
structure Session (β : Type) where
  options : Options
  backend : β
  counters : Counters := {}
  sorts : SortTable := {}
  values : ValueTable := {}
  atoms : AtomTable := {}
  /-- The clauses that the backend took, in order. -/
  clauses : Array Clause := #[]
  /-- The rules that are grounded in a pass over the instance. -/
  rules : Array Rule := #[]
  /-- The sorts of variables that were declared in programs. -/
  typings : Typings := ∅
  stage : Stage := .configuration
  /-- Whether passes of grounding are to stop. -/
  cancelled : Bool := false
  /-- What passes of grounding find outside. -/
  host : Host := {}
  /-- The assumptions of the last decision. -/
  assumptions : List String := []

/-- An operation on a session.  What it has changed stays changed when it fails. -/
abbrev SessionM (β α : Type) := ExceptT Failure (StateM (Session β)) α

namespace Session

variable {β : Type}

/-- A session over the solver of the library. -/
def ofOptions (options : Options) : Session Solver where
  options := options
  backend := { minimise := options.minimiseCore }

/-- The session over another backend, for which the clauses are not repeated. -/
def mapBackend {γ : Type} (f : β → γ) (s : Session β) : Session γ :=
  { s with backend := f s.backend }

/-- What is known of the instance. -/
def verdict (s : Session β) : Verdict :=
  s.stage.verdict

/-- Passes on an answer from a part of the session, with the cause if it failed. -/
def orFail {ε α : Type} (cause : ε → Failure) (answer : Except ε α) : SessionM β α :=
  match answer with
  | .ok a => pure a
  | .error e => throw (cause e)

/-- Notes that something was put in. -/
def noteInput : SessionM β Unit :=
  modify fun s => { s with stage := .input }

/-- Registers a rule for passes over the instance. -/
def addRule (rule : Rule) : SessionM β Unit := do
  noteInput
  modify fun s => { s with rules := s.rules.push rule }

/-- Drops the atoms and the clauses, and resets the backend.  Sorts, values and rules
are kept. -/
def reset [Backend β] : SessionM β Unit :=
  modify fun s =>
    { s with
      atoms := {}
      clauses := #[]
      backend := Backend.reset s.backend
      assumptions := []
      stage := .input }

/-- Sets an option, and returns whether the value is within bounds. -/
def setOption (setting : Setting) : SessionM β Bool := do
  match (← get).options.set? setting with
  | some options =>
    modify fun s => { s with options }
    return true
  | none => return false

/-- Asks that passes of grounding stop, or that they go on again. -/
def setCancelled (cancelled : Bool) : SessionM β Unit :=
  modify fun s => { s with cancelled }

/-- Moves to a host, which later passes of grounding ask. -/
def setHost (host : Host) : SessionM β Unit :=
  modify fun s => { s with host }

end Session

end Groundwork
