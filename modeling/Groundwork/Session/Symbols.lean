import Groundwork.Session
import Groundwork.Tree

/-!
# Sorts and values of a session

Constants and values are put in one by one.  A sort may not grow beyond the limit
of the options, and this is looked at before anything else.
-/

namespace Groundwork.Session

variable {β : Type}

/-- Runs an operation on the sorts of a session. -/
def onSorts {α : Type} (f : SortTable → Except SortError α × SortTable) : SessionM β α := do
  let answer ← modifyGet fun s =>
    let (answer, sorts) := f s.sorts
    (answer, { s with sorts })
  orFail .sort answer

/-- Fails if a sort would grow beyond the limit. -/
def checkSortLimit (sort : String) (count : Nat) : SessionM β Unit := do
  let s ← get
  let required := min (s.sorts.sizeOf sort + count) Text.maxCount
  let limit := s.options.sortLimit.value
  if limit < required then throw (.sort (.sortLimit sort required limit))

/-- Adds fresh constants to a sort, and returns them. -/
def fillSort (sort : String) (count : Nat) : SessionM β (List String) := do
  checkSortLimit sort count
  noteInput
  onSorts fun sorts => sorts.fill sort count

/-- Adds a constant to a sort. -/
def addElement (sort constant : String) : SessionM β Unit := do
  checkSortLimit sort 1
  noteInput
  onSorts fun sorts => sorts.addElement sort constant

/-- Adds the typing of a function. -/
def addSignature (signature : Signature) : SessionM β Unit := do
  modify fun s => { s with sorts := s.sorts.addSignature signature }
  noteInput

/-- Sets the value of a function on a constant, and returns the value it had. -/
def setValue (domain function image : String) : SessionM β (Option String) := do
  if let some name := [domain, function, image].find? fun name => !legalToken name then
    throw (.sort (.illegalName name))
  noteInput
  modifyGet fun s =>
    let (previous, values) := s.values.set domain function image
    (previous, { s with values })

/-- The constant that a term denotes. -/
def evaluateTerm (s : Session β) (term : String) : Except Failure String :=
  (s.values.evaluate term).mapError .ground

/-- Checks the value of a typed function on one constant. -/
def validateAt (s : Session β) (signature : Signature) (image : Roster String) (constant : String) :
    Except Failure Unit :=
  match s.values.get? constant signature.function with
  | none => .error (.ground (.unboundFunctionApplication constant signature.function))
  | some value =>
    if image.contains value then .ok ()
    else
      .error (.sort
        (.imageOutsideSort (constant ++ "." ++ signature.function) value signature.image))

/-- Checks one typing of a function: each constant of its domain has a value, and the
value is a constant of its image. -/
def validateSignature (s : Session β) (signature : Signature) : Except Failure Unit :=
  match s.sorts.get? signature.domain, s.sorts.get? signature.image with
  | none, _ => .error (.sort (.unknownSort signature.domain))
  | some _, none => .error (.sort (.unknownSort signature.image))
  | some domain, some image => domain.toList.forM (s.validateAt signature image)

/-- Checks all typings of functions against the values. -/
def validateFunctions (s : Session β) : Except Failure Unit :=
  s.sorts.signatures.toList.forM s.validateSignature

/-- Adds the constants of a tree to a sort, and its edges to the values.  A sink, if
there is one, is added too, and every function of the tree maps the leaves and the
sink to the sink, so that the functions have values on all constants. -/
def installTree (sort : String) (tree : Tree) (sink : Option String) : SessionM β Unit := do
  tree.constants.forM (addElement sort)
  tree.edges.forM fun edge => do
    discard (setValue edge.parent edge.function edge.child)
  if let some sink := sink then
    addElement sort sink
    tree.functions.forM fun function =>
      (tree.leaves ++ [sink]).forM fun leaf => do
        discard (setValue leaf function sink)

end Groundwork.Session
