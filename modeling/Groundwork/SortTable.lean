import Groundwork.Failure
import Groundwork.Roster
import Groundwork.Token
import Std.Data.HashMap

/-!
# Sorts

A sort is a named finite universe of constants.  Its constants keep the order in
which they were added, and this is the order in which variables of the sort are
bound.  A constant may belong to several sorts.

The table also keeps the typings of functions, which say that a function maps
the constants of one sort to constants of another.
-/

namespace Groundwork

/-- A named sequence of distinct constants. -/
structure NamedSort where
  name : String
  elements : Roster String

/-- The function maps constants of the domain sort to constants of the image
sort. -/
structure Signature where
  domain : String
  function : String
  image : String
deriving DecidableEq, Hashable, Repr

/-- The sorts of an instance and the typings of functions. -/
structure SortTable where
  /-- The constants of each sort that is declared. -/
  elements : Std.HashMap String (Roster String) := ∅
  /-- The declared sorts, in order of declaration. -/
  names : Roster String := ∅
  /-- The constants of all sorts. -/
  constants : Std.HashSet String := ∅
  signatures : Roster Signature := ∅
  mem_names : ∀ sort, sort ∈ names.toList ↔ sort ∈ elements := by simp
  mem_constants : ∀ constant, constant ∈ constants ↔
    ∃ (sort : String) (roster : Roster String), elements[sort]? = some roster ∧ constant ∈ roster.toList := by simp

namespace SortTable

/-- The constants of a sort, if it is declared. -/
def get? (t : SortTable) (sort : String) : Option (Roster String) :=
  t.elements[sort]?

/-- The sorts with their constants, in order of declaration. -/
def sorts (t : SortTable) : List NamedSort :=
  t.names.toList.filterMap fun name => (t.get? name).map fun elements => { name, elements }

/-- Whether the constant belongs to some sort. -/
def isConstant (t : SortTable) (constant : String) : Bool :=
  t.constants.contains constant

theorem isConstant_iff (t : SortTable) (constant : String) : t.isConstant constant = true ↔
    ∃ (sort : String) (roster : Roster String), t.get? sort = some roster ∧ constant ∈ roster.toList := by
  rw [isConstant, ← Std.HashSet.mem_iff_contains, t.mem_constants]
  rfl

/-- The number of constants of a sort, which is zero before it is declared. -/
def sizeOf (t : SortTable) (sort : String) : Nat :=
  ((t.get? sort).map Roster.size).getD 0

/-- The table with constants added to a sort, which is declared if need be.  A new
sort comes last. -/
def extend (t : SortTable) (sort : String) (new : List String) : SortTable where
  elements := t.elements.alter sort fun roster => some (new.foldl .insert (roster.getD ∅))
  names := t.names.insert sort
  constants := t.constants.insertMany new
  signatures := t.signatures
  mem_names := by
    intro other
    rw [Roster.toList_insert, Std.HashMap.mem_alter]
    have known := t.mem_names
    by_cases same : sort = other
    · subst same
      by_cases mem : sort ∈ t.names.toList <;> simp [mem]
    · by_cases mem : sort ∈ t.names.toList <;> simp [mem, same, Ne.symm same, known]
  mem_constants := by
    intro constant
    simp only [Std.HashSet.mem_insertMany_list, t.mem_constants, Std.HashMap.getElem?_alter,
      List.contains_eq_mem, decide_eq_true_eq, beq_iff_eq]
    constructor
    · rintro (⟨other, roster, known, mem⟩ | mem)
      · by_cases same : sort = other
        · subst same
          exact ⟨sort, _, by rw [if_pos rfl], by
            rw [Roster.mem_toList_foldl_insert, known]
            exact .inl mem⟩
        · exact ⟨other, roster, by rw [if_neg same, known], mem⟩
      · exact ⟨sort, _, by rw [if_pos rfl], (Roster.mem_toList_foldl_insert ..).2 (.inr mem)⟩
    · rintro ⟨other, roster, known, mem⟩
      by_cases same : sort = other
      · rw [if_pos same, Option.some.injEq] at known
        rw [← known, Roster.mem_toList_foldl_insert] at mem
        refine mem.imp (fun mem => ?_) id
        cases found : t.elements[sort]? with
        | none => simp [found] at mem
        | some roster => exact ⟨sort, roster, found, by simpa [found] using mem⟩
      · exact .inl ⟨other, roster, by rwa [if_neg same] at known, mem⟩

/-- The table with a sort, which is declared unless it is known.  A new sort comes
last and is empty. -/
def declared (t : SortTable) (sort : String) : SortTable :=
  match t.get? sort with
  | some _ => t
  | none => t.extend sort []

/-- Declares a sort, if no sort has the name. -/
def declare (t : SortTable) (sort : String) : Except SortError SortTable :=
  if legalToken sort then .ok (t.declared sort) else .error (.illegalName sort)

/-- Adds a constant to a sort, which is declared if need be.  The declaration
stays when the constant is refused. -/
def addElement (t : SortTable) (sort constant : String) : Except SortError Unit × SortTable :=
  match t.declare sort with
  | .error e => (.error e, t)
  | .ok t =>
    if !legalToken constant then (.error (.illegalName constant), t)
    else if ((t.get? sort).getD ∅).contains constant then
      (.error (.duplicateConstant sort constant), t)
    else (.ok (), t.extend sort [constant])

/-- A stem with a number after it. -/
def numbered (stem : String) (index : Nat) : String :=
  stem ++ toString index

/-- The first `count` names, made of a stem and a number from `index` on, that are not
among the elements, behind those that are `found`.  Only so many candidates are
looked at. -/
def findFresh (elements : Roster String) (stem : String) (found : Array String) :
    (count index candidates : Nat) → Array String
  | 0, _, _ => found
  | _, _, 0 => found
  | count + 1, index, candidates + 1 =>
    let name := numbered stem index
    if elements.contains name then findFresh elements stem found (count + 1) (index + 1) candidates
    else findFresh elements stem (found.push name) count (index + 1) candidates

theorem toList_findFresh (elements : Roster String) (stem : String) (found : Array String)
    (count index candidates : Nat) :
    (findFresh elements stem found count index candidates).toList =
      found.toList ++
        (((List.range' index candidates).map (numbered stem)).filter fun name =>
          !elements.contains name).take count := by
  induction candidates generalizing found count index with
  | zero => cases count <;> simp [findFresh]
  | succ candidates ih =>
    cases count with
    | zero => simp [findFresh]
    | succ count =>
      by_cases known : elements.contains (numbered stem index) = true <;>
        simp [findFresh, known, ih, List.range'_succ]

/-- The first `count` names, made of a stem and a number from `elements.size` on,
that are not among the elements. -/
def freshNames (elements : Roster String) (stem : String) (count : Nat) : List String :=
  (findFresh elements stem #[] count elements.size (elements.size + count)).toList

/-- Adds `count` constants named after the sort and numbered on from its size,
and returns them.  The sort is declared if need be. -/
def fill (t : SortTable) (sort : String) (count : Nat) :
    Except SortError (List String) × SortTable :=
  match t.declare sort with
  | .error e => (.error e, t)
  | .ok t =>
    let fresh := freshNames ((t.get? sort).getD ∅) sort count
    (.ok fresh, t.extend sort fresh)

/-- Adds a typing of a function, unless it is there already. -/
def addSignature (t : SortTable) (signature : Signature) : SortTable :=
  { t with signatures := t.signatures.insert signature }

end SortTable

end Groundwork
