import Std.Data.HashMap
import Groundwork.Failure

/-!
# Atoms and their names

An atom table gives numbers to ground atoms.  Numbers are handed out from one
on, and the number of a ground atom never changes while the table is neither
rolled back nor cleared.  Pairings that come from elsewhere may be recorded too.

The table also records the predicate of an atom where it is known.  As the names
of predicates may contain spaces, it cannot be read off the ground atom.
-/

namespace Groundwork

/-- What is known of an atom. -/
structure AtomEntry where
  /-- The ground atom. -/
  text : String
  predicate : Option String := none
deriving DecidableEq, Repr

/-- The pairing of ground atoms and numbers. -/
structure AtomTable where
  /-- The entry of atom `n` is at position `n - 1`. -/
  entries : Array (Option AtomEntry) := #[]
  /-- The number of each ground atom. -/
  index : Std.HashMap String Nat := ∅

namespace AtomTable

/-- The number of a ground atom. -/
def get? (t : AtomTable) (text : String) : Option Nat :=
  t.index[text]?

/-- The entry of an atom. -/
def entry? (t : AtomTable) : Nat → Option AtomEntry
  | 0 => none
  | position + 1 => t.entries[position]?.join

/-- The ground atom with a number. -/
def text? (t : AtomTable) (atom : Nat) : Option String :=
  (t.entry? atom).map (·.text)

/-- The count of atoms. -/
def size (t : AtomTable) : Nat :=
  t.index.size

/-- The largest number in use, or zero. -/
def largest (t : AtomTable) : Nat :=
  t.entries.size

/-- Gives the number of a ground atom, which is one above the largest if the ground
atom is new. -/
def intern (t : AtomTable) (text : String) : Except GroundError Nat × AtomTable :=
  match t.get? text with
  | some atom => (.ok atom, t)
  | none =>
    let atom := t.largest + 1
    if atom ≤ maxAtom then
      (.ok atom,
        { entries := t.entries.push (some { text }), index := t.index.insert text atom })
    else (.error .atomsExhausted, t)

/-- Records a given pairing.  Atoms are dense, so the number may be at most the
count of the pairings that are to be recorded. -/
def insertAt (t : AtomTable) (text : String) (atom bound : Nat) :
    Except DocumentError AtomTable :=
  if atom = 0 ∨ maxAtom < atom ∨ bound < atom then .error (.corruptLiteralMap text)
  else if (t.get? text).isSome ∨ (t.entry? atom).isSome then .error (.corruptLiteralMap text)
  else
    let padded := t.entries ++ Array.replicate (atom - t.entries.size) none
    .ok
      { entries := padded.setIfInBounds (atom - 1) (some { text })
        index := t.index.insert text atom }

/-- Whether a ground atom is the predicate itself, or the predicate followed by a
space. -/
def fits (text predicate : String) : Bool :=
  !predicate.isEmpty && text.startsWith predicate &&
    match text.toList.drop predicate.length with
    | [] => true
    | c :: _ => c == ' '

/-- Records the predicate of an atom if it fits, and returns whether it does. -/
def setPredicate (t : AtomTable) (atom : Nat) (predicate : String) : Bool × AtomTable :=
  match t.entry? atom with
  | some entry =>
    if fits entry.text predicate then
      let entry := { entry with predicate := some predicate }
      (true, { t with entries := t.entries.setIfInBounds (atom - 1) (some entry) })
    else (false, t)
  | none => (false, t)

/-- The predicate of an atom, if recorded. -/
def predicate? (t : AtomTable) (atom : Nat) : Option String :=
  (t.entry? atom).bind (·.predicate)

/-- The arguments of an atom whose predicate is recorded, and otherwise none. -/
def arguments (t : AtomTable) (atom : Nat) : List String :=
  match t.entry? atom with
  | some { text, predicate := some predicate } =>
    (((text.toList.drop predicate.length).splitOn ' ').filter fun word => !word.isEmpty).map
      String.ofList
  | _ => []

/-- The literal of a ground atom, if it has a number. -/
def literal? (t : AtomTable) (text : String) (polarity : Bool) : Option Literal :=
  (t.get? text).map fun atom => Literal.ofAtom atom polarity

/-- The atoms with their entries, in increasing order. -/
def toList (t : AtomTable) : List (Nat × AtomEntry) :=
  (t.entries.toList.zipIdx 1).filterMap fun (entry, atom) => entry.map (atom, ·)

/-- Withdraws every atom above the given one. -/
def rollback (t : AtomTable) (atom : Nat) : AtomTable :=
  if t.largest ≤ atom then t
  else
    { entries := t.entries.take atom
      index :=
        (t.entries.toList.drop atom).foldl
          (fun index entry =>
            match entry with
            | some entry => index.erase entry.text
            | none => index)
          t.index }

end AtomTable

end Groundwork
