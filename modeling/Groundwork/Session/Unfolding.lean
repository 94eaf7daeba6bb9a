import Groundwork.Grounding.Strategy
import Groundwork.Session

/-!
# Unfolding rules into clauses

Unfolding has three phases.  First all rules of a pass are grounded, without any
change to the session.  Only if no rule fails are the atoms numbered, and only if
the numbers do not run out are the clauses handed to the backend, in the order of
the rules.
-/

namespace Groundwork

/-- A computation on a table of atoms.  What it has numbered stays numbered when it
fails. -/
abbrev AtomM (α : Type) := ExceptT GroundError (StateM AtomTable) α

namespace AtomTable

/-- Records the first of some predicates that fits an atom, unless one is recorded. -/
def adoptPredicate (t : AtomTable) (atom : Nat) (predicates : List String) : AtomTable :=
  match t.entry? atom with
  | some { text, predicate := none } =>
    match predicates.find? (fits text) with
    | some predicate => (t.setPredicate atom predicate).2
    | none => t
  | _ => t

/-- The literal of a signed atom, which is numbered if it is new. -/
def encodeAtom (predicates : List String) (signed : String × Bool) : AtomM Literal := do
  let atom ← (ExceptT.mk fun t => t.intern signed.1 : AtomM Nat)
  modify fun t => t.adoptPredicate atom predicates
  return Literal.ofAtom atom signed.2

/-- The literals of a ground clause. -/
def encodeClause (kind : RuleKind) (predicates : List String) (clause : GroundClause) :
    AtomM Clause :=
  (clause.signedAtoms kind).mapM (encodeAtom predicates)

/-- The clauses of a grounded rule. -/
def encodeGrounded (grounded : Grounded) : AtomM (List Clause) :=
  grounded.clauses.toList.mapM (encodeClause grounded.kind grounded.predicates)

end AtomTable

namespace Session

variable {β : Type}

/-- The tables and limits of a session, for grounding.  A request to stop may have come
before the pass or come in its course. -/
def grounder (s : Session β) (restrictions : List (String × List String)) : Grounder where
  sorts := s.sorts
  values := s.values
  restrictions := restrictions
  bindingLimit := s.options.bindingLimit.value
  timeLimit := s.options.timeLimit
  elapsed := s.host.elapsed
  cancelled rule bindings := s.cancelled || s.host.raised rule bindings

/-- The restrictions of sorts to some of their constants, the latest first. -/
def restrict (s : Session β) :
    List (String × List String) → Except GroundError (List (String × List String))
  | [] => .ok []
  | (sort, constants) :: rest =>
    match s.sorts.get? sort with
    | none => .error (.unknownSort sort)
    | some elements =>
      match constants.find? fun constant => !elements.contains constant with
      | some outside => .error (.restrictionOutsideSort sort outside)
      | none => do
        let later ← s.restrict rest
        return later ++ [(sort, constants)]

/-- The strategy that the options ask for. -/
def strategy (s : Session β) : Strategy :=
  if s.options.groupRules then .shared
  else if s.options.parallelGrounding then .chunked s.host.workers
  else .serial

/-- The comparisons that hold if constants of one sort with different names are
different, each once and in order of the sorts. -/
def uniqueNameAtoms (sorts : SortTable) : List String :=
  let atoms := sorts.sorts.flatMap fun sort =>
    sort.elements.toList.flatMap fun left =>
      sort.elements.toList.map fun right => equalityAtom left right (left == right)
  (Roster.ofList atoms).toList

/-- Runs a computation on the atoms of a session. -/
def onAtoms {α : Type} (m : AtomM α) : SessionM β α := do
  let answer ← modifyGet fun s =>
    let (answer, atoms) := m.run.run s.atoms
    (answer, { s with atoms })
  orFail .ground answer

/-- Counts the bindings of a grounded rule and adds its clauses to some clauses.  If the
numbers of atoms run out, all atoms above the given one are withdrawn. -/
def encode (largest : Nat) (clauses : Array Clause) (grounded : Grounded) :
    SessionM β (Array Clause) := do
  modify fun s =>
    { s with counters := { s.counters with bindings := s.counters.bindings + grounded.bindings } }
  try
    return clauses ++ (← onAtoms (AtomTable.encodeGrounded grounded))
  catch failure =>
    modify fun s => { s with atoms := s.atoms.rollback largest }
    throw failure

variable [Backend β]

/-- Hands a clause to the backend, and notes it if it is taken. -/
def handClause (c : Clause) : SessionM β Unit := do
  let answer ← modifyGet fun s =>
    let (answer, backend) := Backend.add s.backend c
    (answer, { s with backend })
  let admission ← orFail .backend answer
  modify fun s =>
    { s with
      counters :=
        { s.counters with
          clauses := s.counters.clauses + 1
          tautologies := s.counters.tautologies + (admission == .tautology).toNat }
      clauses := s.clauses.push c }
  noteInput

/-- Hands the clauses of grounded rules to the backend, and returns their number. -/
def commit (grounded : List Grounded) : SessionM β Nat := do
  let clauses ← grounded.foldlM (encode (← get).atoms.largest) #[]
  clauses.toList.forM handClause
  return clauses.size

/-- Grounds rules, counts them, and hands their clauses to the backend. -/
def unfoldGrounded (answer : Except GroundError (List Grounded)) : SessionM β Nat := do
  let grounded ← orFail .ground answer
  modify fun s =>
    { s with
      counters :=
        { s.counters with rulesUnfolded := s.counters.rulesUnfolded + grounded.length } }
  commit grounded

/-- Unfolds a rule, with sorts restricted for this once to some of their constants. -/
def unfoldRestricted (rule : Rule) (restrictions : List (String × List String)) :
    SessionM β Nat := do
  let s ← get
  unfoldGrounded do
    let restrictions ← s.restrict restrictions
    return [← (s.grounder restrictions).ground rule]

/-- Unfolds a rule. -/
def unfoldRule (rule : Rule) : SessionM β Nat :=
  unfoldRestricted rule []

/-- Unfolds all registered rules. -/
def unfoldInstance : SessionM β Nat := do
  let s ← get
  unfoldGrounded ((s.grounder []).groundAll s.strategy s.rules.toList)

/-- Hands a ground clause to the backend. -/
def addGroundClause (kind : RuleKind) (clause : GroundClause) : SessionM β Nat :=
  commit [{ kind, clauses := #[clause] }]

/-- Asserts or denies a ground atom. -/
def assertAtom (text : String) (polarity : Bool) : SessionM β Unit := do
  handClause [← onAtoms (AtomTable.encodeAtom [] (text, polarity))]

/-- Asserts that constants of one sort with different names are different, and returns
the number of clauses. -/
def assumeUniqueNames : SessionM β Nat := do
  let atoms := uniqueNameAtoms (← get).sorts
  commit
    [{ kind := .assertion
       clauses := (atoms.map fun atom => GroundClause.withHead atom []).toArray }]

end Session

end Groundwork
