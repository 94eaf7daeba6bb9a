import Groundwork.Grounding.Shared

/-!
# Strategies

Several rules can be grounded one after the other, in chunks that are handed to
workers, or by shared enumeration.  The results are in the order of the rules in
any case.
-/

namespace Groundwork

/-- How several rules are grounded. -/
inductive Strategy where
  /-- One after the other. -/
  | serial
  /-- In chunks, one for each worker. -/
  | chunked (workers : Nat)
  /-- With one enumeration for all rules over the same sorts. -/
  | shared
deriving DecidableEq, Repr

namespace Grounder

/-- A list cut into chunks of the given size, of which the last may be shorter.  A
chunk has at least one element. -/
def chunks {α : Type} (size : Nat) : List α → List (List α)
  | [] => []
  | a :: l => (a :: l.take (size - 1)) :: chunks size (l.drop (size - 1))
termination_by l => l.length
decreasing_by simp only [List.length_drop, List.length_cons]; omega

/-- Grounds each chunk by itself, and joins the results.  The error is that of the
first chunk that has one. -/
def groundChunked (g : Grounder) (workers : Nat) (rules : List Rule) :
    Except GroundError (List Grounded) := do
  let size := (rules.length + (max workers 1 - 1)) / max workers 1
  let results := (chunks size rules).map fun chunk => chunk.mapM g.ground
  return (← results.mapM id).flatten

/-- Grounds rules by a strategy. -/
def groundAll (g : Grounder) (strategy : Strategy) (rules : List Rule) :
    Except GroundError (List Grounded) :=
  match strategy with
  | .serial => rules.mapM g.ground
  | .chunked workers => g.groundChunked workers rules
  | .shared => g.groundShared rules

end Grounder

end Groundwork
