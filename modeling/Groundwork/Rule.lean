import Groundwork.Relation
import Groundwork.Roster

/-!
# Rules

A rule is a template of clauses: relations in its heads and in its body, and
variables with their sorts.  Exactly one kind applies to a rule and says how its
instances become clauses.

A variable whose name begins with `any` is not bound together with the others.
For each binding of the others, a relation that mentions such variables stands
for its instances under all of their values.
-/

namespace Groundwork

/-- What a rule says of its instances. -/
inductive RuleKind where
  /-- If all of the body holds, so does each head. -/
  | implication
  /-- Each head holds. -/
  | assertion
  /-- Some relation of the body holds. -/
  | disjunction
  /-- Some relation of the body does not hold. -/
  | contradiction
deriving DecidableEq, Repr

/-- A variable of a rule with the sort over which it ranges. -/
structure Variable where
  name : String
  sort : String
deriving DecidableEq, Repr

/-- Whether the variable is instantiated within a clause rather than across
clauses. -/
def isAnyVariable (name : String) : Bool :=
  ['a', 'n', 'y'].isPrefixOf name.toList

/-- Constants bound to names, the latest first.  The latest binding of a name is
the one that counts. -/
abbrev Bindings := List (String × String)

/-- Binds names to the values at the same positions, one after the other. -/
def Bindings.bindEach (b : Bindings) (names values : List String) : Bindings :=
  (names.zip values).foldl (fun b pair => pair :: b) b

/-- An unground rule. -/
structure Rule where
  kind : RuleKind
  /-- The heads of an implication or of an assertion. -/
  heads : List Relation
  /-- The body, which holds the alternatives of a disjunction. -/
  body : List Relation
  vars : List Variable
  bindings : Bindings := []
deriving DecidableEq, Repr

namespace Rule

/-- The sort of a variable: of its first mention, if a name is repeated. -/
def sortOf? (r : Rule) (name : String) : Option String :=
  (r.vars.find? fun v => v.name == name).map (·.sort)

/-- The variables that are bound by enumeration. -/
def plainVariables (r : Rule) : List Variable :=
  r.vars.filter fun v => !isAnyVariable v.name

/-- The variables that are instantiated within a clause. -/
def anyVariables (r : Rule) : List Variable :=
  r.vars.filter fun v => isAnyVariable v.name

/-- All relations of the rule, heads first. -/
def relations (r : Rule) : List Relation :=
  r.heads ++ r.body

/-- The bases of terms that are not variables, each once, in order of mention. -/
def constantTerms (r : Rule) : List String :=
  let bases := r.relations.flatMap fun relation => relation.terms.map Term.base
  distinct (outside bases (r.vars.map (·.name)))

/-- Binds each variable to the value at the same position. -/
def rebind (r : Rule) (values : List String) : Rule :=
  { r with bindings := r.bindings.bindEach (r.vars.map (·.name)) values }

/-- Binds the given names to the given values. -/
def bindEach (r : Rule) (names values : List String) : Rule :=
  { r with bindings := r.bindings.bindEach names values }

instance : ToString Rule where
  toString r :=
    let join (separator : String) (relations : List Relation) : String :=
      separator.intercalate (relations.map toString)
    match r.kind with
    | .implication => join ", " r.body ++ " => " ++ join ", " r.heads
    | .assertion => join ", " r.heads
    | .disjunction => join " v " r.body
    | .contradiction => join ", " r.body ++ " => False"

end Rule

/-- The term with its base replaced by the constant bound to it, if there is one.
Applied functions are kept. -/
def Bindings.replace (b : Bindings) (term : String) : String :=
  let base := Term.base term
  Term.apply ((b.lookup base).getD base) (Term.functions term)

/-- The relation with every term replaced. -/
def Bindings.bind (b : Bindings) (relation : Relation) : Relation :=
  relation.mapTerms b.replace

end Groundwork
