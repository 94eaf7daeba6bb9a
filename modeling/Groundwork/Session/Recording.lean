import Groundwork.Document
import Groundwork.Session.Symbols
import Groundwork.Session.Unfolding

/-!
# Sessions and their documents

The document of a session records its clauses, atoms and values.  A session that
is made from a document has the same clauses over the same atoms, and so the same
models.  Sorts, rules and the typings of variables are not recorded.
-/

namespace Groundwork

namespace AtomTable

/-- Pairs a ground atom with the literal that a document gives it.  The literals of a
document are the numbers from one to their count. -/
def installLiteral (count : Nat) (t : AtomTable) (entry : String × Literal) :
    Except DocumentError AtomTable :=
  if entry.2 ≤ 0 then .error (.corruptLiteralMap entry.1)
  else t.insertAt entry.1 (Literal.atom entry.2) count

/-- Records the predicate that a document gives a ground atom. -/
def installPredicate (t : AtomTable) (entry : String × String) : Except DocumentError AtomTable :=
  match t.get? entry.1 with
  | none => .error (.corruptLiteralMap entry.1)
  | some atom =>
    match t.setPredicate atom entry.2 with
    | (true, t) => .ok t
    | (false, _) => .error (.corruptLiteralMap entry.1)

/-- The atoms that a document records. -/
def ofDocument (d : Document) : Except DocumentError AtomTable := do
  let t ← d.literals.entries.foldlM (installLiteral d.literals.size) {}
  d.predicates.entries.foldlM installPredicate t

end AtomTable

namespace Session

variable {β : Type}

/-- The document of a session. -/
def document (s : Session β) : Document where
  clauses := s.clauses.toList
  literals :=
    Dictionary.ofList (s.atoms.toList.map fun (atom, entry) =>
      (entry.text, Literal.ofAtom atom true))
  predicates :=
    Dictionary.ofList (s.atoms.toList.filterMap fun (_, entry) =>
      entry.predicate.map (entry.text, ·))
  values := s.values.toList

variable [Backend β]

/-- Hands a clause of a document to the backend. -/
def installClause (c : Clause) : SessionM β Unit := do
  let atoms := (← get).atoms
  if let some l := c.find? fun l => (atoms.text? (Literal.atom l)).isNone then
    throw (.document (.unmappedLiteral l))
  handClause c

/-- Puts all that a document records into a session. -/
def installDocument (d : Document) : SessionM β Unit := do
  let atoms ← orFail .document (AtomTable.ofDocument d)
  modify fun s => { s with atoms }
  d.clauses.forM installClause
  d.values.forM fun (domain, function, image) => discard (setValue domain function image)

/-- The session that a document records, over the solver of the library. -/
def ofDocument (d : Document) (options : Options) : Except Failure (Session Solver) :=
  let (answer, s) := (installDocument d).run (ofOptions options)
  answer.map fun _ => s

end Session

end Groundwork
