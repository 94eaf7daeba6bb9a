import Groundwork.Failure
import Groundwork.Rule
import Std.Data.HashMap

/-!
# Rule statements

A statement is read in three steps.  Its connectives decide the kind of the
rule; each side is split into atoms at the separators outside of parentheses;
each atom is read as a comparison or as a predicate with arguments, and the
sorts with which terms are annotated are gathered.

The separators of a disjunction begin and end with a space.  Two of them can
share that space, and then no piece of text lies between them.  Such a statement
has no reading at all, which is told apart from a defect.
-/

namespace Groundwork

/-- The sorts of variables.  The latest sort of a name is the one that counts. -/
abbrev Typings := Std.HashMap String String

namespace Statement

/-- Why a statement gives no rule. -/
inductive Fault where
  | defect (defect : RuleDefect)
  /-- A separator begins before the one before it has ended. -/
  | overlap
deriving DecidableEq, Repr

/-- A term with the sort with which it is annotated, if any. -/
structure AnnotatedTerm where
  term : String
  sort : Option String
deriving DecidableEq, Repr

/-! ## Separators -/

/-- The separator of atoms that all hold. -/
def conjunction : List Char := [',']

/-- The separator of alternatives. -/
def disjunction : List Char := [' ', 'v', ' ']

/-- The positions of a separator outside of parentheses, counted from `position`
on.  Parentheses have to be balanced, and are not nested. -/
def topLevelFrom (separator : List Char) (position : Nat) (inside : Bool) :
    List Char → Except RuleDefect (List Nat)
  | [] => if inside then .error .nesting else .ok []
  | c :: rest =>
    if c = '(' then
      if inside then .error .nesting else topLevelFrom separator (position + 1) true rest
    else if c = ')' then
      if inside then topLevelFrom separator (position + 1) false rest else .error .nesting
    else do
      let later ← topLevelFrom separator (position + 1) inside rest
      return if !inside && separator.isPrefixOf (c :: rest) then position :: later else later

/-- The positions of a separator outside of parentheses. -/
def topLevel (separator text : List Char) : Except RuleDefect (List Nat) :=
  topLevelFrom separator 0 false text

/-- The pieces of a text between separators of the given width at the given
positions, or `none` if a separator begins before the one before it has ended.  The
text begins at position `start`. -/
def piecesBetween? (width start : Nat) (text : List Char) : List Nat → Option (List (List Char))
  | [] => some [text]
  | position :: positions =>
    if start ≤ position then
      let (piece, rest) := text.splitAt (position - start)
      (piecesBetween? width (position + width) (rest.drop width) positions).map (piece :: ·)
    else none

/-- Reports a defect as the fault of a statement. -/
def orDefect {α : Type} (r : Except RuleDefect α) : Except Fault α :=
  r.mapError .defect

/-- Splits a text into atoms at one separator.  The other separator may not occur
outside of parentheses. -/
def splitAtoms (separator other text : List Char) : Except Fault (List (List Char)) := do
  unless (← orDefect (topLevel other text)).isEmpty do
    throw (.defect .mixedConnectives)
  let positions ← orDefect (topLevel separator text)
  match piecesBetween? separator.length 0 text positions with
  | none => throw .overlap
  | some pieces =>
    let atoms := pieces.map Text.trim
    if atoms.any List.isEmpty then throw (.defect .emptySegment) else return atoms

/-- The kind of a statement, and the texts of the atoms of its heads and body. -/
structure Shape where
  kind : RuleKind
  heads : List (List Char)
  body : List (List Char)
deriving DecidableEq, Repr

/-- Reads the connectives of a statement. -/
def readShape (text : List Char) : Except Fault Shape :=
  match Text.splitPair '=' '>' text with
  | [body, head] => do
    unless (← orDefect (topLevel disjunction body)).isEmpty do
      throw (.defect .mixedConnectives)
    unless (← orDefect (topLevel disjunction head)).isEmpty do
      throw (.defect .mixedConnectives)
    let body ← splitAtoms conjunction disjunction body
    if Text.trim head == "False".toList then
      return { kind := .contradiction, heads := [], body }
    else
      return { kind := .implication, heads := ← splitAtoms conjunction disjunction head, body }
  | [_] => do
    if (← orDefect (topLevel disjunction text)).isEmpty then
      return { kind := .assertion, heads := ← splitAtoms conjunction disjunction text, body := [] }
    else
      return { kind := .disjunction, heads := [], body := ← splitAtoms disjunction conjunction text }
  | pieces => throw (.defect (.implicationCount (pieces.length - 1)))

/-! ## Atoms -/

/-- Reads a term with an optional annotation.  Blanks around the dots of function
applications are dropped. -/
def readTerm (text : List Char) : Except RuleDefect AnnotatedTerm := do
  let (term, sort) ←
    match Text.cut? ':' text with
    | none => pure (text, none)
    | some (term, sort) =>
      let sort := Text.trim sort
      if isToken sort then pure (term, some (String.ofList sort))
      else throw (.illegalToken (String.ofList sort))
  if (Text.trim term).isEmpty then throw .emptySegment
  let parts := (term.splitOn '.').map Text.trim
  if parts.all isToken then
    return { term := String.ofList (['.'].intercalate parts), sort }
  else throw (.illegalToken (String.ofList (Text.trim term)))

/-- The two sides of a comparison, and whether it is an equality. -/
def comparison? (atom : List Char) : Option (List Char × Bool × List Char) :=
  match Text.cutPair? '!' '=' atom with
  | some (left, right) => some (left, false, right)
  | none => (Text.cut? '=' atom).map fun (left, right) => (left, true, right)

/-- The name and the arguments of the application of a predicate. -/
def application? (atom : List Char) : Option (List Char × List Char) := do
  let (name, rest) ← Text.cut? '(' atom
  if rest.getLast? = some ')' then some (name, rest.dropLast) else none

/-- Reads an atom as a relation, with its terms. -/
def readAtom (atom : List Char) : Except RuleDefect (Relation × List AnnotatedTerm) :=
  match comparison? atom with
  | some (left, equal, right) => do
    let left ← readTerm left
    let right ← readTerm right
    return (.comparison left.term equal right.term, [left, right])
  | none =>
    match application? atom with
    | none => throw (.atomShape (String.ofList atom))
    | some (name, arguments) => do
      let words := Text.words name
      if words.isEmpty then throw (.atomShape (String.ofList atom))
      if let some word := words.find? fun word => !isToken word then
        throw (.illegalToken (String.ofList word))
      let terms ←
        if (Text.trim arguments).isEmpty then pure []
        else (arguments.splitOn ',').mapM readTerm
      return (.predicate (String.ofList ([' '].intercalate words)) (terms.map (·.term)), terms)

/-! ## Variables -/

/-- What the terms read so far say of their bases. -/
structure Mentions where
  /-- The sorts of the annotated bases. -/
  annotations : Std.HashMap String String := ∅
  /-- All bases, in order of first mention. -/
  bases : Roster String := ∅

namespace Mentions

/-- Notes the sort of a base, which may not have another one. -/
def annotate (m : Mentions) (base sort : String) : Except RuleDefect Mentions :=
  match m.annotations[base]? with
  | some first =>
    if first = sort then .ok m else .error (.conflictingSort base first sort)
  | none => .ok { m with annotations := m.annotations.insert base sort }

/-- Notes the base of a term and its annotation. -/
def addTerm (m : Mentions) (t : AnnotatedTerm) : Except RuleDefect Mentions := do
  let base := Term.base t.term
  let m ←
    match t.sort with
    | some sort => m.annotate base sort
    | none => pure m
  return { m with bases := m.bases.insert base }

/-- The bases that are variables: those with an annotation or with a typing, of
which the annotation counts. -/
def vars (m : Mentions) (typings : Typings) : List Variable :=
  m.bases.toList.filterMap fun base =>
    (m.annotations[base]? <|> typings[base]?).map fun sort => { name := base, sort }

end Mentions

/-- Reads atoms one after the other and notes their terms. -/
def readAtoms (m : Mentions) :
    List (List Char) → Except RuleDefect (List Relation × Mentions)
  | [] => .ok ([], m)
  | atom :: atoms => do
    let (relation, terms) ← readAtom atom
    let (relations, m) ← readAtoms (← terms.foldlM Mentions.addTerm m) atoms
    return (relation :: relations, m)

/-- Reads a statement as a rule.  Variables are ordered by first mention, the body
before the heads. -/
def read (typings : Typings) (text : List Char) : Except Fault Rule := do
  let shape ← readShape text
  let (body, mentions) ← orDefect (readAtoms {} shape.body)
  let (heads, mentions) ← orDefect (readAtoms mentions shape.heads)
  return { kind := shape.kind, heads, body, vars := mentions.vars typings }

end Statement

end Groundwork
