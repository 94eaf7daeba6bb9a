import Groundwork.Dictionary
import Groundwork.Json.Value
import Groundwork.Literal

/-!
# Documents

A document records an instance: its clauses, the literals and the predicates of
its ground atoms, and the values of its functions.  It is written in JSON, as an
object with the four fields `clauses`, `literals`, `predicates` and `values`, and
read back from such an object, or from the array of its fields.  The clauses are
also written in DIMACS form.
-/

namespace Groundwork

/-- The clauses, atoms and values of an instance. -/
structure Document where
  clauses : List Clause
  /-- The literal of each ground atom. -/
  literals : Dictionary Literal
  /-- The predicate of each ground atom of which it is known. -/
  predicates : Dictionary String
  /-- Triples of a constant, a function and its value. -/
  values : List (String × String × String)
deriving DecidableEq, Repr

namespace Document

open Json (Token Value)

/-! ## Writing -/

/-- The tokens of elements with commas between them. -/
def separated : List (List Token) → List Token :=
  List.intercalate [.comma]

/-- The tokens of an array. -/
def arrayTokens (elements : List (List Token)) : List Token :=
  .beginArray :: separated elements ++ [.endArray]

/-- The tokens of an object. -/
def objectTokens (members : List (String × List Token)) : List Token :=
  .beginObject ::
    separated (members.map fun (key, value) => .text key :: .colon :: value) ++ [.endObject]

/-- The token of a literal. -/
def literalTokens (l : Literal) : List Token :=
  [.integer l.toInt]

/-- The tokens of a document. -/
def tokens (d : Document) : List Token :=
  objectTokens
    [("clauses", arrayTokens (d.clauses.map fun c => arrayTokens (c.map literalTokens))),
      ("literals", objectTokens (d.literals.entries.map fun (atom, l) => (atom, literalTokens l))),
      ("predicates",
        objectTokens (d.predicates.entries.map fun (atom, name) => (atom, [.text name]))),
      ("values",
        arrayTokens (d.values.map fun (domain, function, image) =>
          arrayTokens [[.text domain], [.text function], [.text image]]))]

/-- The document in JSON on one line. -/
def toJson (d : Document) : String :=
  Json.compact d.tokens

/-- The document in JSON with one element to a line. -/
def toJsonPretty (d : Document) : String :=
  Json.pretty d.tokens

/-- The document in DIMACS form.  The ground atoms are given in comments, in order of
literal. -/
def toDimacs (d : Document) : String :=
  let atoms := d.literals.entries.mergeSort fun a b => a.2 ≤ b.2
  let comments := atoms.map fun (atom, l) => "c " ++ toString l ++ " " ++ atom ++ "\n"
  let largest := (atoms.getLast?.map (·.2)).getD 0
  let header := "p cnf " ++ toString largest ++ " " ++ toString d.clauses.length ++ "\n"
  let clauses := d.clauses.map fun c => Clause.dimacs c true ++ "\n"
  String.join (comments ++ header :: clauses)

/-! ## Reading -/

/-- Reads a literal: every number that is a signed word of 32 bits. -/
def literalOf? : Value → Option Literal
  | .integer n => if (Int32.ofInt n).toInt = n then some (Int32.ofInt n) else none
  | _ => none

/-- Reads a string. -/
def textOf? : Value → Option String
  | .text s => some s
  | _ => none

/-- Reads an array, with a reader for its elements. -/
def arrayOf? {α : Type} (read : Value → Option α) : Value → Option (List α)
  | .array elements => elements.mapM read
  | _ => none

/-- Reads a member of an object, with a reader for its value. -/
def memberOf? {α : Type} (read : Value → Option α) :
    Option String × Value → Option (String × α)
  | (some key, value) => (read value).map (key, ·)
  | (none, _) => none

/-- Reads a dictionary, with a reader for its values. -/
def dictionaryOf? {α : Type} (read : Value → Option α) : Value → Option (Dictionary α)
  | .object members =>
    (members.mapM (memberOf? read)).map Dictionary.ofList
  | _ => none

/-- Reads a triple of strings. -/
def tripleOf? (v : Value) : Option (String × String × String) := do
  let [domain, function, image] ← arrayOf? textOf? v | none
  return (domain, function, image)

/-- Reads a document from its fields. -/
def ofFields? (clauses literals predicates values : Value) : Option Document := do
  return {
    clauses := ← arrayOf? (arrayOf? literalOf?) clauses
    literals := ← dictionaryOf? literalOf? literals
    predicates := ← dictionaryOf? textOf? predicates
    values := ← arrayOf? tripleOf? values }

/-- The one member under a key, `none` if there is no such member, and a failure if
there are several. -/
def member? (key : String) (members : List (String × Value)) : Option (Option Value) :=
  match members.filter fun entry => entry.1 == key with
  | [] => some none
  | [(_, value)] => some (some value)
  | _ => none

/-- Reads a document from a value.  An object may have other members, and may leave
out the predicates.  No field may occur twice. -/
def ofValue? : Value → Option Document
  | .object members => do
    let members ← members.mapM (memberOf? some)
    let clauses ← ← member? "clauses" members
    let literals ← ← member? "literals" members
    let predicates := (← member? "predicates" members).getD (.object [])
    let values ← ← member? "values" members
    ofFields? clauses literals predicates values
  | .array [clauses, literals, predicates, values] => ofFields? clauses literals predicates values
  | _ => none

/-- Reads a document from JSON. -/
def ofJson? (text : String) : Option Document :=
  (Value.ofText? text).bind ofValue?

end Document

end Groundwork
