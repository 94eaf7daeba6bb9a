import Std.Data.HashMap
import Groundwork.Failure
import Groundwork.Token

/-!
# Values of functions

A value table is a partial function from a constant and the name of a function
to a constant.  Terms are evaluated in it from left to right.  It has to hold a
value for every pair that an evaluation meets, so a miss is an error.
-/

namespace Groundwork

/-- The values of functions on constants. -/
structure ValueTable where
  images : Std.HashMap (String × String) String := ∅
  /-- The pairs of a constant and a function that have a value, in the order in
  which they first got one. -/
  order : Array (String × String) := #[]

namespace ValueTable

/-- The value of a function on a constant. -/
def get? (t : ValueTable) (domain function : String) : Option String :=
  t.images[(domain, function)]?

/-- Sets the value of a function on a constant, and returns the value it had. -/
def set (t : ValueTable) (domain function image : String) : Option String × ValueTable :=
  let previous := t.get? domain function
  (previous,
    { images := t.images.insert (domain, function) image
      order := if previous.isSome then t.order else t.order.push (domain, function) })

/-- The constant that a term denotes. -/
def evaluate (t : ValueTable) (term : String) : Except GroundError String :=
  (Term.functions term).foldlM
    (fun image function =>
      match t.get? image function with
      | some next => .ok next
      | none => .error (.unboundFunctionApplication image function))
    (Term.base term)

/-- The triples of a constant, a function and its value, in the order in which
the pairs first got a value. -/
def toList (t : ValueTable) : List (String × String × String) :=
  t.order.toList.filterMap fun (domain, function) =>
    (t.get? domain function).map fun image => (domain, function, image)

def size (t : ValueTable) : Nat :=
  t.order.size

end ValueTable

end Groundwork
