import Groundwork.Backend
import Groundwork.Roster
import Groundwork.Solver.Search

/-!
# The solver

The backend of the library: a search with unit propagation and chronological
backtracking.  As decisions try false first, a model is the least one in the
order of atoms.

A core of assumptions is found by deletion: each assumption in turn is left out
for good if the others still cannot hold.
-/

namespace Groundwork

/-- The clauses recorded by the solver, and what it found last. -/
structure Solver where
  /-- Whether cores are made minimal. -/
  minimise : Bool
  /-- The clauses, each in decreasing order and without repetitions. -/
  clauses : Array Clause := #[]
  /-- Whether the empty clause was recorded. -/
  hasEmpty : Bool := false
  /-- The largest atom met in a clause or an assumption. -/
  atoms : Nat := 0
  model : Option (List Literal) := none
  core : List Literal := []
deriving Repr

namespace Solver

/-- The number of clauses recorded. -/
def clauseCount (s : Solver) : Nat :=
  s.clauses.size + s.hasEmpty.toNat

/-- Notes the atoms of literals one after the other, and stops at a zero. -/
def noteAtoms (s : Solver) : List Literal → Except BackendError Unit × Solver
  | [] => (.ok (), s)
  | l :: rest =>
    if l = 0 then (.error .zeroLiteral, s)
    else noteAtoms { s with atoms := max s.atoms (Literal.atom l) } rest

/-- The literals of a clause in decreasing order, each once.  Atoms are decided from the
least on, so the literals that stay free the longest, or are true the soonest, come
first. -/
def normalise (c : Clause) : Clause :=
  (c.mergeSort fun a b => b ≤ a).eraseReps

/-- Whether a clause has a literal together with its negation. -/
def isTautology (c : Clause) : Bool :=
  meets (c.map Literal.negate) c

/-- Records a clause. -/
def add (s : Solver) (c : Clause) : Except BackendError Admission × Solver :=
  match s.noteAtoms c with
  | (.error e, s) => (.error e, s)
  | (.ok (), s) =>
    let c := normalise c
    if isTautology c then (.ok .tautology, s)
    else if c.isEmpty then (.ok .added, { s with hasEmpty := true })
    else (.ok .added, { s with clauses := s.clauses.push c })

/-- The formula of the recorded clauses. -/
def formula (s : Solver) : Formula :=
  .ofClauses ((if s.hasEmpty then [[]] else []) ++ s.clauses.toList)

/-- Goes through the literals after those that are kept, and leaves out each one
without which the rest is still refuted. -/
def prune (f : Formula) (kept : List Literal) : List Literal → List Literal
  | [] => kept
  | l :: rest => if f.refutes (kept ++ rest) then prune f kept rest else prune f (kept ++ [l]) rest

/-- The part of refuted assumptions that is given as the reason, made minimal if it is
asked for. -/
def coreOf (f : Formula) (minimise : Bool) (assumptions : List Literal) : List Literal :=
  if f.refutes [] then []
  else if minimise then prune f [] assumptions
  else assumptions

/-- Decides the clauses under assumptions. -/
def solve (s : Solver) (assumptions : List Literal) : Except BackendError Verdict × Solver :=
  match s.noteAtoms assumptions with
  | (.error e, s) => (.error e, s)
  | (.ok (), s) =>
    let f := s.formula
    match f.solve? assumptions with
    | some p => (.ok .satisfiable, { s with model := some (p.model s.atoms), core := [] })
    | none =>
      (.ok .unsatisfiable, { s with model := none, core := coreOf f s.minimise assumptions })

/-- The model that was found last, unless it was found that there is none. -/
def model? (s : Solver) : Except BackendError (List Literal) :=
  match s.model with
  | some model => .ok model
  | none => .error .noModel

/-- Forgets all clauses, and any model or core. -/
def reset (s : Solver) : Solver :=
  { minimise := s.minimise }

instance : Backend Solver where
  add := add
  solve := solve
  model := model?
  core := core
  reset := reset

end Solver

end Groundwork
