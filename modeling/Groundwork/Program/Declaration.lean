import Groundwork.SortTable
import Groundwork.Text.Count

/-!
# Declarations

A line whose first word is `sort` or `var` is a declaration.  There are four
forms:

* `sort NAME COUNT` fills a sort with fresh constants,
* `sort NAME add e1, e2, ...` adds named constants to a sort,
* `sort A.f in B` types a function,
* `var x, y : NAME` types variables for all later statements.
-/

namespace Groundwork

/-- A declaration of a program. -/
inductive Declaration where
  /-- The sort gets so many fresh constants. -/
  | cardinality (sort : String) (count : Nat)
  /-- The sort gets the named constants. -/
  | extension (sort : String) (elements : List String)
  /-- The function is typed. -/
  | typing (signature : Signature)
  /-- Each variable has the sort, unless a rule says otherwise. -/
  | vars (names : List String) (sort : String)
deriving DecidableEq, Repr

namespace Declaration

/-- A character that can stand within a word. -/
def inWord (c : Char) : Bool :=
  !Text.isBlank c

/-- Whether a line is meant as a declaration. -/
def isDeclaration (line : List Char) : Bool :=
  match Text.words line with
  | [] => false
  | first :: _ => first == "sort".toList || first == "var".toList

/-- Reads the typing of a function from the words around `in`. -/
def readTyping? (application image : List Char) : Option Declaration := do
  let (domain, function) ← Text.cut? '.' application
  if isToken image && isToken domain && isToken function then
    some (.typing
      { domain := String.ofList domain
        function := String.ofList function
        image := String.ofList image })
  else none

/-- Reads the constants after `add`, which are separated by commas or blanks. -/
def readExtension? (sort : List Char) (words : List (List Char)) : Option Declaration :=
  let elements := (words.flatMap fun word => word.splitOn ',').filter fun element =>
    !element.isEmpty
  if isToken sort && elements.all isToken && !elements.isEmpty then
    some (.extension (String.ofList sort) (elements.map String.ofList))
  else none

/-- Reads the words after `sort`. -/
def readSort? : List (List Char) → Option Declaration
  | [sort, count] =>
    if isToken sort then
      (Text.count? count).map fun count => .cardinality (String.ofList sort) count
    else none
  | first :: second :: rest =>
    if second == "in".toList then
      match rest with
      | [image] => readTyping? first image
      | _ => none
    else if second == "add".toList then readExtension? first rest
    else none
  | _ => none

/-- Reads the text after `var`. -/
def readVariables? (text : List Char) : Option Declaration := do
  let (names, sort) ← Text.cut? ':' text
  let names := (names.splitOn ',').map Text.trim
  let sort := Text.trim sort
  if isToken sort && names.all isToken then
    some (.vars (names.map String.ofList) (String.ofList sort))
  else none

/-- Reads a declaration, if the line has one of the four forms. -/
def read? (line : List Char) : Option Declaration :=
  let line := Text.trim line
  let keyword := line.takeWhile inWord
  match line.dropWhile inWord with
  | [] => none
  | _ :: rest =>
    if keyword == "sort".toList then readSort? (Text.words rest)
    else if keyword == "var".toList then readVariables? (Text.trim rest)
    else none

open Text (quote quoteAll record tagged)

instance : ToString Declaration where
  toString
    | .cardinality sort count =>
      record "Cardinality" [("sort", quote sort), ("count", toString count)]
    | .extension sort elements =>
      record "Extension" [("sort", quote sort), ("elements", quoteAll elements)]
    | .typing { domain, function, image } =>
      tagged "Function"
        (record "FunctionSignature"
          [("domain", quote domain), ("function", quote function), ("image", quote image)])
    | .vars names sort =>
      record "Variables" [("variables", quoteAll names), ("sort", quote sort)]

end Declaration

end Groundwork
