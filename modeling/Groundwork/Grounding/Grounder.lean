import Groundwork.GroundClause
import Groundwork.Product
import Groundwork.SortTable
import Groundwork.ValueTable

/-!
# Grounding a rule

For each binding of the plain variables of a rule to a tuple of constants of
their sorts:

1. each variable in each relation is replaced by its constant, also as the base
   of a function application;
2. each relation that mentions `any` variables is replaced by its instances under
   all of their values, of which those with the same encoding are kept once;
3. each term is evaluated, and each relation becomes a ground atom;
4. the ground atoms become clauses as the kind of the rule says.

Replacement is simultaneous: a constant that takes the place of a variable is not
looked at again.
-/

namespace Groundwork

/-- The ground clauses of a rule. -/
structure Grounded where
  kind : RuleKind
  clauses : Array GroundClause := #[]
  /-- The number of bindings of the plain variables. -/
  bindings : Nat := 0
  /-- The names of the predicates of the rule, the longest first. -/
  predicates : List String := []
deriving DecidableEq, Repr

/-- The names of the predicates of a rule, each once.  Longer names come first, and
names of the same length are in alphabetical order. -/
def Rule.predicates (r : Rule) : List String :=
  let names := (r.relations.filter fun relation => !relation.isComparison).map Relation.name
  let before (a b : String) : Bool :=
    b.utf8ByteSize < a.utf8ByteSize || (a.utf8ByteSize == b.utf8ByteSize && !decide (b < a))
  (names.mergeSort before).eraseReps

/-- A variable with the constants over which it ranges. -/
structure Range where
  name : String
  elements : List String
deriving DecidableEq, Repr

/-- The ranges of the variables of a rule. -/
structure Ranges where
  plain : List Range
  any : List Range
deriving DecidableEq, Repr

/-- The tables and the limits under which rules are grounded. -/
structure Grounder where
  sorts : SortTable
  values : ValueTable
  /-- Constants that stand in for all constants of a sort, the latest first. -/
  restrictions : List (String × List String) := []
  bindingLimit : Nat
  /-- The time that a pass may take, in nanoseconds, where zero is no limit. -/
  timeLimit : Nat := 0
  /-- The time that the pass has taken when so many bindings of a rule are done. -/
  elapsed : Rule → Nat → Nat := fun _ _ => 0
  /-- Whether the pass is cancelled by then. -/
  cancelled : Rule → Nat → Bool := fun _ _ => false

namespace Grounder

/-- The constants of a sort, after any restriction. -/
def elements (g : Grounder) (sort : String) : Except GroundError (List String) :=
  match g.restrictions.lookup sort with
  | some constants => .ok constants
  | none =>
    match g.sorts.get? sort with
    | some elements => .ok elements.toList
    | none => .error (.unknownSort sort)

/-- The ranges of variables. -/
def rangesOf (g : Grounder) (vars : List Variable) : Except GroundError (List Range) :=
  vars.mapM fun v => do return { name := v.name, elements := ← g.elements v.sort }

/-- The ranges of the variables of a rule.  Every other base has to be a constant,
and the bindings of all variables may not be too many. -/
def ranges (g : Grounder) (r : Rule) : Except GroundError Ranges := do
  if let some term := r.constantTerms.find? fun term => !g.sorts.isConstant term then
    throw (.unknownVariableSort term)
  let plain ← g.rangesOf r.plainVariables
  let any ← g.rangesOf r.anyVariables
  let required :=
    Product.saturatingMul (Product.count (plain.map (·.elements)))
      (Product.count (any.map (·.elements)))
  if g.bindingLimit < required then throw (.bindingLimit required g.bindingLimit)
  return { plain, any }

/-- How often, in bindings, the limits are looked at. -/
def checkInterval : Nat := 256

/-- Whether a pass is late when so many bindings of a rule are done. -/
def late (g : Grounder) (r : Rule) (bindings : Nat) : Bool :=
  g.timeLimit ≠ 0 && g.timeLimit < g.elapsed r bindings

/-- Stops a pass that was cancelled or is late, when so many bindings of some rules are
done at once. -/
def checkLimits (g : Grounder) (rules : List Rule) (bindings : Nat) : Except GroundError Unit :=
  if bindings % checkInterval ≠ 0 then .ok ()
  else if rules.any fun r => g.cancelled r bindings then .error .cancelled
  else if rules.any fun r => g.late r bindings then .error .timeUp
  else .ok ()

/-- The ground atom of a relation whose variables are replaced. -/
def evaluate (g : Grounder) (relation : Relation) : Except GroundError String := do
  return (← relation.mapTermsM g.values.evaluate).groundAtom

/-- The ground atoms that take the place of a relation: one for each binding of the
`any` variables it mentions, if their encodings differ. -/
def instances (g : Grounder) (any : List Range) (bindings : Bindings) (relation : Relation) :
    Except GroundError (List String) := do
  let mentioned := any.filter fun range => relation.mentions range.name
  if mentioned.isEmpty then
    return [← g.evaluate (bindings.bind relation)]
  let names := mentioned.map (·.name)
  let (_, atoms) ← Product.foldM
    (fun (seen, atoms) tuple => do
      let bound := (bindings.bindEach names tuple).bind relation
      match Roster.insert? seen bound.encoding with
      | none => return (seen, atoms)
      | some seen => return (seen, atoms.push (← g.evaluate bound)))
    ((∅ : Roster String), (#[] : Array String)) (mentioned.map (·.elements))
  return atoms.toList

/-- The clauses of a kind of rule over the instances of its body and of its heads. -/
def clausesOf (kind : RuleKind) (body heads : List String) : List GroundClause :=
  match kind with
  | .implication => heads.map fun head => .withHead head body
  | .assertion => heads.map fun head => .withHead head []
  | .disjunction | .contradiction => [.headless body]

/-- The clauses of a rule under one binding of its plain variables. -/
def groundBinding (g : Grounder) (r : Rule) (any : List Range) (bindings : Bindings) :
    Except GroundError (List GroundClause) := do
  let body ← r.body.mapM (g.instances any bindings)
  let heads ← r.heads.mapM (g.instances any bindings)
  return clausesOf r.kind body.flatten heads.flatten

/-- The result of a rule before any binding. -/
def start (r : Rule) : Grounded :=
  { kind := r.kind, predicates := r.predicates }

/-- Grounds a rule under one more binding of its plain variables. -/
def extend (g : Grounder) (r : Rule) (ranges : Ranges) (grounded : Grounded)
    (tuple : List String) : Except GroundError Grounded := do
  let bindings := r.bindings.bindEach (ranges.plain.map (·.name)) tuple
  let clauses ← g.groundBinding r ranges.any bindings
  return { grounded with
    clauses := grounded.clauses ++ clauses.toArray
    bindings := grounded.bindings + 1 }

/-- Grounds a rule under all bindings of its plain variables. -/
def ground (g : Grounder) (r : Rule) : Except GroundError Grounded := do
  let ranges ← g.ranges r
  Product.foldM
    (fun grounded tuple => do
      g.checkLimits [r] grounded.bindings
      g.extend r ranges grounded tuple)
    (start r) (ranges.plain.map (·.elements))

end Grounder

end Groundwork
