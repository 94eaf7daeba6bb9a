import Groundwork.AtomTable
import Groundwork.Relation

/-!
# Listings of models

A model is listed as the names of its atoms, wrapped to lines of a given width.
The tuples of a relation are the arguments of its true atoms.
-/

namespace Groundwork.Listing

/-- The items that are listed for a model, in its order.  False atoms and comparisons
are listed only on request. -/
def items (atoms : AtomTable) (model : List Literal) (withFalse withComparisons : Bool) :
    List String :=
  model.filterMap fun l =>
    (atoms.text? (Literal.atom l)).bind fun text =>
      if !withComparisons && isComparisonAtom text then none
      else if Literal.polarity l then some text
      else if withFalse then some ("not " ++ text)
      else none

/-- The lines of a listing that begins with `line`, which has `used` characters.  An
item goes on the line if there is room for it and for a comma after it, and else on a
new one. -/
def wrapFrom (width : Nat) (line : String) (used : Nat) : List String → List String
  | [] => if line.isEmpty then [] else [line]
  | item :: rest =>
    if line.isEmpty then wrapFrom width item item.length rest
    else if width < used + 2 + item.length + 1 then
      (line ++ ",") :: wrapFrom width item item.length rest
    else wrapFrom width (line ++ ", " ++ item) (used + 2 + item.length) rest

/-- Items separated by commas, wrapped to lines of at most `width` characters where
that is possible. -/
def wrap (width : Nat) (items : List String) : String :=
  "\n".intercalate (wrapFrom width "" 0 items)

/-- Lists the atoms of a model. -/
def render (atoms : AtomTable) (model : List Literal) (withFalse withComparisons : Bool)
    (width : Nat) : String :=
  wrap width (items atoms model withFalse withComparisons)

/-- The order of tuples: by the first position at which they differ. -/
def tupleLE : List String → List String → Bool
  | [], _ => true
  | _ :: _, [] => false
  | a :: as, b :: bs => decide (a < b) || (a == b && tupleLE as bs)

/-- The arguments of the true atoms whose recorded predicate is among the names, each
tuple once and in order. -/
def tuples (atoms : AtomTable) (model : List Literal) (names : List String) :
    List (List String) :=
  let found := model.filterMap fun l =>
    if Literal.polarity l then
      (atoms.predicate? (Literal.atom l)).bind fun predicate =>
        if names.contains predicate then some (atoms.arguments (Literal.atom l)) else none
    else none
  (found.mergeSort tupleLE).eraseReps

end Groundwork.Listing
