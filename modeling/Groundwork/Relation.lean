import Groundwork.Token

/-!
# Relations

A relation is an atom of a rule before its variables are bound.  It is either
the application of a predicate to terms, whose parts are the name and the terms,
or a comparison, whose parts are a term, an operator and a term.

Relations are encoded as strings in two ways.  The *encoding* joins the parts
with two dashes, which no token holds, and tells relations apart.  The *ground
atom* joins the parts with spaces, and is the form under which facts are known.
-/

namespace Groundwork

/-- The operator of an equality or of an inequality. -/
def isOperator (s : String) : Bool :=
  s == "=" || s == "!="

/-- The parts of an atom without blanks around them, joined by spaces. -/
def groundAtom (parts : List String) : String :=
  " ".intercalate (parts.map Text.strip)

/-- The ground atom which states that two constants are equal, or distinct. -/
def equalityAtom (left right : String) (equal : Bool) : String :=
  groundAtom [left, if equal then "=" else "!=", right]

/-- Whether a ground atom states an equality or an inequality. -/
def isComparisonAtom (atom : String) : Bool :=
  match atom.toList.splitOn ' ' with
  | [_, operator, _] => isOperator (String.ofList operator)
  | _ => false

/-- A nonempty sequence of parts. -/
structure Relation where
  first : String
  rest : List String
deriving DecidableEq, Repr

namespace Relation

/-- The relation with the given parts, if there are any. -/
def ofParts? : List String → Option Relation
  | [] => none
  | first :: rest => some { first, rest }

/-- The application of a predicate to terms. -/
def predicate (name : String) (terms : List String) : Relation where
  first := name
  rest := terms

/-- The statement that two terms are equal, or distinct. -/
def comparison (left : String) (equal : Bool) (right : String) : Relation where
  first := left
  rest := [if equal then "=" else "!=", right]

def parts (r : Relation) : List String :=
  r.first :: r.rest

/-- Whether the parts are two sides with an operator between them. -/
def isComparison (r : Relation) : Bool :=
  match r.rest with
  | [operator, _] => isOperator operator
  | _ => false

/-- The name of the predicate, or the operator of a comparison. -/
def name (r : Relation) : String :=
  if r.isComparison then r.rest.headD "" else r.first

/-- The parts other than the name or the operator. -/
def terms (r : Relation) : List String :=
  if r.isComparison then r.first :: r.rest.drop 1 else r.rest

/-- The relation with each term replaced, in order, or the first error. -/
def mapTermsM {m : Type → Type} [Monad m] (f : String → m String) (r : Relation) : m Relation := do
  if r.isComparison then
    let left ← f r.first
    let right ← (r.rest.drop 1).mapM f
    return { first := left, rest := r.rest.take 1 ++ right }
  else
    return { first := r.first, rest := ← r.rest.mapM f }

/-- The relation with each term replaced. -/
def mapTerms (f : String → String) (r : Relation) : Relation :=
  Id.run (r.mapTermsM fun term => pure (f term))

/-- The parts joined by two dashes. -/
def encoding (r : Relation) : String :=
  "--".intercalate (r.parts.map Text.strip)

/-- The parts joined by spaces, which names a fact once all terms are constants. -/
def groundAtom (r : Relation) : String :=
  Groundwork.groundAtom r.parts

/-- Whether some term has the given base. -/
def mentions (r : Relation) (base : String) : Bool :=
  r.terms.any fun term => Term.base term == base

instance : ToString Relation where
  toString r :=
    if r.isComparison then " ".intercalate r.parts
    else r.first ++ " (" ++ ", ".intercalate r.rest ++ ")"

end Relation

end Groundwork
