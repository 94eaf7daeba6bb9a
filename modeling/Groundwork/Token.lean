import Groundwork.Text.Blank
import Groundwork.Text.Cut

/-!
# Tokens and terms

A token names a constant, a variable, a function or a sort.  A term is a base
with functions applied to it from left to right, written with dots: `a.f.g` is
`g` of `f` of `a`.
-/

namespace Groundwork

/-- The characters that no token holds. -/
def reserved : List Char :=
  ['.', ',', '(', ')', ':', '=', '!']

/-- Whether a text may name a constant, a variable, a function or a sort: it is
not empty, has no blank and no reserved character, and no two dashes in a row. -/
def isToken (cs : List Char) : Bool :=
  !cs.isEmpty && !cs.any Text.isBlank && !cs.any reserved.contains &&
    (Text.cutPair? '-' '-' cs).isNone

/-- Whether a string is a legal token. -/
def legalToken (s : String) : Bool :=
  isToken s.toList

namespace Term

/-- The base of a term, to which its functions are applied. -/
def base (term : String) : String :=
  match term.toList.splitOn '.' with
  | [] => ""
  | base :: _ => String.ofList (Text.trim base)

/-- The functions applied to the base of a term, in order of application. -/
def functions (term : String) : List String :=
  ((term.toList.splitOn '.').drop 1).map fun name => String.ofList (Text.trim name)

/-- The application of functions to a base. -/
def apply (base : String) (functions : List String) : String :=
  functions.foldl (fun term name => term ++ "." ++ name) base

end Term

end Groundwork
