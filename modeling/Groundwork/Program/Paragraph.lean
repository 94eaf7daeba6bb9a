import Groundwork.Text.Blank
import Groundwork.Text.Cut

/-!
# Comments and paragraphs

Two dashes open a comment and two dashes close it, on the same line or on a
later one.  Paragraphs are separated by lines that are blank and not within a
comment.  A comment that is never closed takes the paragraph in which it was
opened, and all later ones, with it.
-/

namespace Groundwork.Program

/-- A line of a program without its comments and without blanks at either end. -/
structure Line where
  /-- The number of the line in the program, counted from one. -/
  number : Nat
  text : List Char
deriving DecidableEq, Repr

/-- Where a comment was opened. -/
structure Opening where
  line : Nat
  /-- The number of paragraphs that were complete by then. -/
  paragraph : Nat
deriving DecidableEq, Repr

/-- The paragraphs of a program, and the line of the delimiter without a partner,
if there is one. -/
structure Paragraphs where
  paragraphs : List (List Line)
  unmatched : Option Nat
deriving DecidableEq, Repr

/-- The pieces of a line that are not in a comment, joined.  Pieces inside and
outside of comments alternate. -/
def codeOf (inComment : Bool) : List (List Char) → List Char
  | [] => []
  | piece :: rest => (if inComment then [] else piece) ++ codeOf (!inComment) rest

/-- What has been read of a program, line by line. -/
structure Reading where
  /-- The complete paragraphs. -/
  done : Array (List Line) := #[]
  /-- The lines of the paragraph that is being read. -/
  current : Array Line := #[]
  /-- The opening of the comment that is being read. -/
  opening : Option Opening := none
deriving DecidableEq, Repr

namespace Reading

/-- Ends the current paragraph, if it has a line. -/
def close (r : Reading) : Reading :=
  if r.current.isEmpty then r
  else { r with done := r.done.push r.current.toList, current := #[] }

/-- Reads one line. -/
def addLine (r : Reading) (number : Nat) (raw : List Char) : Reading :=
  let inComment := r.opening.isSome
  if !inComment && (Text.trim raw).isEmpty then r.close
  else
    let pieces := Text.splitPair '-' '-' raw
    let delimiters := pieces.length - 1
    let text := Text.trim (codeOf inComment pieces)
    { done := r.done
      current := if text.isEmpty then r.current else r.current.push { number, text }
      opening :=
        if delimiters = 0 then r.opening
        else if inComment != (delimiters % 2 == 1) then
          some { line := number, paragraph := r.done.size }
        else none }

/-- The paragraphs, once all lines are read. -/
def finish (r : Reading) : Paragraphs :=
  let paragraphs := r.close.done.toList
  match r.opening with
  | none => { paragraphs, unmatched := none }
  | some opening =>
    { paragraphs := paragraphs.take opening.paragraph, unmatched := some opening.line }

end Reading

/-- Splits a program into paragraphs of nonempty lines without comments. -/
def paragraphs (text : List Char) : Paragraphs :=
  let lines := (text.splitOn '\n').zipIdx 1
  (lines.foldl (fun (r : Reading) (raw, number) => r.addLine number raw) {}).finish

end Groundwork.Program
