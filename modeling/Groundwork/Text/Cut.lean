/-!
# Cutting text at delimiters

Delimiters are one or two characters long.  A text is cut at the first place
where a delimiter stands, or at all of them from left to right without overlap.
-/

namespace Groundwork.Text

/-- The text before and after the first `c`, if `c` occurs. -/
def cut? (c : Char) : List Char → Option (List Char × List Char)
  | [] => none
  | d :: rest =>
    if d = c then some ([], rest)
    else (cut? c rest).map fun (left, right) => (d :: left, right)

/-- The text before and after the first place where `a` is followed by `b`. -/
def cutPair? (a b : Char) : List Char → Option (List Char × List Char)
  | c :: d :: rest =>
    if c = a ∧ d = b then some ([], rest)
    else (cutPair? a b (d :: rest)).map fun (left, right) => (c :: left, right)
  | _ => none

/-- The pieces of a text between the places where `a` is followed by `b`, taken
from left to right without overlap.  There is always one piece more than there
are such places. -/
def splitPair (a b : Char) : List Char → List (List Char)
  | c :: d :: rest =>
    if c = a ∧ d = b then [] :: splitPair a b rest
    else (splitPair a b (d :: rest)).modifyHead (c :: ·)
  | cs => [cs]

example : splitPair '-' '-' "a---b".toList = ["a".toList, "-b".toList] := by decide

end Groundwork.Text
