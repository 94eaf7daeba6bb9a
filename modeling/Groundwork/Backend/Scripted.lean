import Groundwork.Backend

/-!
# Scripted backends

A scripted backend decides nothing.  It plays back answers that are given
beforehand, and so shows how its user fares with refused clauses, verdicts that
stay open, and models that are missing.
-/

namespace Groundwork

/-- A backend that plays back given answers. -/
structure Scripted where
  /-- The answers to come, where `none` is a refusal.  Past the end nothing is
  known. -/
  verdicts : List (Option Verdict) := []
  model : Option (List Literal) := none
  core : List Literal := []
  /-- The clause that is refused, counted from one since the last reset. -/
  refused : Option Nat := none
  /-- The clause that is taken for a tautology, counted likewise. -/
  tautology : Option Nat := none
  /-- The number of clauses offered since the last reset. -/
  offered : Nat := 0
deriving Repr

namespace Scripted

/-- Answers as the script says for the clause that is offered. -/
def add (s : Scripted) : Except BackendError Admission × Scripted :=
  let offered := s.offered + 1
  let answer :=
    if s.refused = some offered then .error .zeroLiteral
    else if s.tautology = some offered then .ok .tautology
    else .ok .added
  (answer, { s with offered })

/-- Answers as the script says for the next decision. -/
def solve (s : Scripted) : Except BackendError Verdict × Scripted :=
  match s.verdicts with
  | [] => (.ok .unknown, s)
  | some verdict :: rest => (.ok verdict, { s with verdicts := rest })
  | none :: rest => (.error .zeroLiteral, { s with verdicts := rest })

instance : Backend Scripted where
  add s _ := s.add
  solve s _ := s.solve
  model s :=
    match s.model with
    | some model => .ok model
    | none => .error .noModel
  core s := s.core
  reset s := { s with offered := 0 }

end Scripted

end Groundwork
