/-!
# Trees of constants

A tree is a generated universe of constants.  Its root is given, and each
constant above the last level has one child for each function, named after the
parent and the function.
-/

namespace Groundwork

/-- An edge of a tree: the function maps the parent to the child. -/
structure TreeEdge where
  function : String
  parent : String
  child : String
deriving DecidableEq, Repr

/-- A tree of constants. -/
structure Tree where
  /-- The levels of the tree, root first, each in order. -/
  levels : List (List String)
  edges : List TreeEdge
  functions : List String
deriving DecidableEq, Repr

namespace Tree

/-- The edges that leave the constants of one level. -/
def edgesBelow (functions level : List String) : List TreeEdge :=
  level.flatMap fun parent => functions.map fun function =>
    { function, parent, child := parent ++ "_" ++ function }

/-- The levels and the edges under a level, to the given depth.  There is nothing
under an empty level. -/
def grow (functions : List String) : Nat → List String → List (List String) × List TreeEdge
  | 0, level => ([level], [])
  | _ + 1, [] => ([[]], [])
  | depth + 1, level =>
    let edges := edgesBelow functions level
    let (levels, later) := grow functions depth (edges.map (·.child))
    (level :: levels, edges ++ later)

/-- The tree of the given depth over a root, with a child for each function. -/
def ofRoot (root : String) (functions : List String) (depth : Nat) : Tree :=
  let (levels, edges) := grow functions depth [root]
  { levels, edges, functions }

/-- All constants, root first and then level by level. -/
def constants (t : Tree) : List String :=
  t.levels.flatten

/-- The constants of the last level. -/
def leaves (t : Tree) : List String :=
  t.levels.getLastD []

end Tree

end Groundwork
