import Groundwork.Rule

/-!
# Ground clauses

A ground clause is an instance of a rule, over the names of atoms.  How it is
read depends on the kind of the rule: the body of a disjunction is made of
positive atoms, any other body of negative ones, and a head is always positive.
-/

namespace Groundwork

/-- A head, if there is one, and a body of ground atoms. -/
structure GroundClause where
  head : Option String
  body : List String
deriving DecidableEq, Repr

namespace GroundClause

/-- The clause with the given head.  The empty text is no head. -/
def withHead (head : String) (body : List String) : GroundClause where
  head := if head.isEmpty then none else some head
  body := body

/-- The clause without a head. -/
def headless (body : List String) : GroundClause where
  head := none
  body := body

/-- The atoms of the clause with their polarities, head first.  An atom that is
repeated with the same polarity is listed once. -/
def signedAtoms (c : GroundClause) (kind : RuleKind) : List (String × Bool) :=
  distinct (c.head.toList.map (·, true) ++ c.body.map (·, kind == .disjunction))

instance : ToString GroundClause where
  toString c := c.head.getD "" ++ " <- " ++ ", ".intercalate c.body

end GroundClause

end Groundwork
