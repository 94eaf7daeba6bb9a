import Groundwork.Grounding.Grounder

/-!
# Shared enumeration

Rules whose plain variables have the same sorts, in any order, form a group.  The
signature of the group is the sorted list of those sorts, and bindings are
enumerated once for the group, over the signature.

Each rule has a permutation from its variables to positions of the signature.
Where a sort occurs more than once, its variables take its positions in order.
The clauses of a rule are those found for the rule alone, though perhaps in
another order.
-/

namespace Groundwork.Grounder

/-- The positions that sorts take one after the other, each the first of its sort
among those that remain. -/
def takePositions? : List (String × Nat) → List String → Option (List Nat)
  | _, [] => some []
  | remaining, sort :: sorts => do
    let (_, position) ← remaining.find? fun entry => entry.1 == sort
    let positions ← takePositions? (remaining.eraseP fun entry => entry.1 == sort) sorts
    return position :: positions

/-- The position in the signature that each of the sorts takes, if the sorts are a
rearrangement of the signature. -/
def permutation? (signature sorts : List String) : Option (List Nat) :=
  if signature.length = sorts.length then takePositions? signature.zipIdx sorts else none

/-- A rule in a group. -/
structure Member where
  /-- The position of the rule among all rules. -/
  index : Nat
  rule : Rule
  /-- The position in the signature that each plain variable takes. -/
  positions : List Nat
deriving DecidableEq, Repr

/-- Rules that share an enumeration. -/
structure Group where
  signature : List String
  members : Array Member
deriving DecidableEq, Repr

/-- The sorts of the plain variables of a rule, sorted. -/
def signatureOf (r : Rule) : List String :=
  (r.plainVariables.map (·.sort)).mergeSort fun a b => !decide (b < a)

/-- Adds a rule to the group with its signature, or as a new group at the end. -/
def addToGroups (signature : List String) (member : Member) : List Group → List Group
  | [] => [{ signature, members := #[member] }]
  | group :: groups =>
    if group.signature = signature then
      { group with members := group.members.push member } :: groups
    else group :: addToGroups signature member groups

/-- The groups of some rules, in order of first member. -/
def groupsOf (rules : List Rule) : List Group :=
  rules.zipIdx.foldl
    (fun groups (rule, index) =>
      let signature := signatureOf rule
      match permutation? signature (rule.plainVariables.map (·.sort)) with
      | some positions => addToGroups signature { index, rule, positions } groups
      | none => groups)
    []

/-- The part of a tuple of the signature that the positions of a rule pick out. -/
def readOff (positions : List Nat) (tuple : List String) : List String :=
  positions.map fun position => tuple[position]?.getD ""

/-- A member of a group while its group is grounded. -/
structure Grounding where
  member : Member
  ranges : Ranges
  grounded : Grounded
deriving DecidableEq, Repr

/-- Grounds a member under one tuple of the signature. -/
def extendMember (g : Grounder) (tuple : List String) (state : Grounding) :
    Except GroundError Grounding := do
  return { state with
    grounded := ← g.extend state.member.rule state.ranges state.grounded
      (readOff state.member.positions tuple) }

/-- Grounds the members of a group, each with its position among all rules. -/
def groundGroup (g : Grounder) (group : Group) : Except GroundError (List (Nat × Grounded)) := do
  let sequences ← group.signature.mapM g.elements
  let members ← group.members.toList.mapM fun member => do
    let ranges ← g.ranges member.rule
    return ({ member, ranges, grounded := start member.rule } : Grounding)
  let (_, members) ← Product.foldM
    (fun (count, members) tuple => do
      g.checkLimits (group.members.toList.map (·.rule)) count
      return (count + 1, ← members.mapM (g.extendMember tuple)))
    (0, members) sequences
  return members.map fun state => (state.member.index, state.grounded)

/-- Grounds rules group by group, with results in the order of the rules. -/
def groundShared (g : Grounder) (rules : List Rule) : Except GroundError (List Grounded) := do
  let results := (← (groupsOf rules).mapM g.groundGroup).flatten
  return (results.mergeSort fun a b => a.1 ≤ b.1).map (·.2)

end Groundwork.Grounder
