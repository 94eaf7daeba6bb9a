import Groundwork.Failure
import Groundwork.Literal

/-!
# Backends

A backend is what decides clauses.  It records clauses for good, until it is
reset, and decides them together with assumptions that hold for one call only.
Every call may be refused, and a refused call may still change the backend, so
each answer comes with the backend after the call.
-/

namespace Groundwork

/-- What became of a clause. -/
inductive Admission where
  | added
  /-- The clause is true under every assignment, and need not be stored. -/
  | tautology
deriving DecidableEq, Repr

/-- What is known of the clauses and assumptions. -/
inductive Verdict where
  | satisfiable
  | unsatisfiable
  | unknown
deriving DecidableEq, Repr

instance : ToString Verdict where
  toString
    | .satisfiable => "Satisfiable"
    | .unsatisfiable => "Unsatisfiable"
    | .unknown => "Unknown"

/-- The operations of a backend. -/
class Backend (β : Type) where
  /-- Records a clause. -/
  add : β → Clause → Except BackendError Admission × β
  /-- Decides the clauses together with the assumptions. -/
  solve : β → List Literal → Except BackendError Verdict × β
  /-- The model found by the last call that found one. -/
  model : β → Except BackendError (List Literal)
  /-- Assumptions of the last call that cannot hold together with the clauses. -/
  core : β → List Literal
  /-- Forgets all clauses, and any model or core. -/
  reset : β → β

/-- A backend of one of two sorts. -/
instance {β γ : Type} [Backend β] [Backend γ] : Backend (β ⊕ γ) where
  add
    | .inl b, c => (Backend.add b c).map id .inl
    | .inr b, c => (Backend.add b c).map id .inr
  solve
    | .inl b, assumptions => (Backend.solve b assumptions).map id .inl
    | .inr b, assumptions => (Backend.solve b assumptions).map id .inr
  model
    | .inl b => Backend.model b
    | .inr b => Backend.model b
  core
    | .inl b => Backend.core b
    | .inr b => Backend.core b
  reset
    | .inl b => .inl (Backend.reset b)
    | .inr b => .inr (Backend.reset b)

end Groundwork
