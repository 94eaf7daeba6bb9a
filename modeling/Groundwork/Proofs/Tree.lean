import Groundwork.Tree
import Mathlib.Data.List.Basic
import Mathlib.Data.String.Basic

/-!
# Paths in a tree of constants

A path of functions leads from the root of a tree to the constant that is named after the root and
the functions.  Constants above the last level (`inner`) have an edge for each function, and those
of the last level (`leaves`) have none.

* `mem_edges_ofRoot`: what the edges are;
* `path_mem_inner`, `path_mem_leaves`: where a path leads to, by its length;
* `child_mem_constants`: edges do not lead out of the tree.

Different constants may be given the same name, since functions may have underscores in their
names.  Nothing here asks for the names to be distinct.
-/

namespace Groundwork

namespace Tree

variable {functions level : List String} {depth : Nat} {edge : TreeEdge}

/-- The constants above the last level. -/
def inner (t : Tree) : List String :=
  t.levels.dropLast.flatten

/-- The constant that a path of functions leads to, without regard to its length. -/
def named (root : String) (path : List String) : String :=
  "_".intercalate (root :: path)

/-- A path goes on from the first child. -/
theorem named_cons (root function : String) (path : List String) :
    named root (function :: path) = named (root ++ "_" ++ function) path :=
  rfl

theorem named_concat (root : String) (path : List String) (function : String) :
    named root (path ++ [function]) = named root path ++ "_" ++ function := by
  induction path generalizing root with
  | nil => rfl
  | cons first path ih => rw [List.cons_append, named_cons, named_cons, ih]

theorem inner_append_leaves (t : Tree) : t.inner ++ t.leaves = t.constants := by
  unfold inner leaves constants
  rcases List.eq_nil_or_concat t.levels with hnil | ⟨levels, last, hlevels⟩
  · rw [hnil]
    rfl
  · simp [hlevels]

/-! ## The levels under a level -/

theorem mem_edgesBelow : edge ∈ edgesBelow functions level ↔
    edge.parent ∈ level ∧ edge.function ∈ functions ∧
      edge.child = edge.parent ++ "_" ++ edge.function := by
  obtain ⟨function, parent, child⟩ := edge
  simp only [edgesBelow, List.mem_flatMap, List.mem_map, TreeEdge.mk.injEq]
  constructor
  · intro h
    obtain ⟨_, hparent, _, hfunction, rfl, rfl, rfl⟩ := h
    exact ⟨hparent, hfunction, rfl⟩
  · intro h
    obtain ⟨hparent, hfunction, rfl⟩ := h
    exact ⟨parent, hparent, function, hfunction, rfl, rfl, rfl⟩

theorem child_mem_children {parent function : String} (hparent : parent ∈ level)
    (hfunction : function ∈ functions) :
    parent ++ "_" ++ function ∈ (edgesBelow functions level).map (·.child) :=
  List.mem_map.2 ⟨⟨function, parent, _⟩, mem_edgesBelow.2 ⟨hparent, hfunction, rfl⟩, rfl⟩

theorem levels_grow (functions : List String) (depth : Nat) (level : List String) :
    ∃ later, (grow functions depth level).1 = level :: later := by
  cases depth with
  | zero => exact ⟨[], rfl⟩
  | succ depth =>
    cases level with
    | nil => exact ⟨[], rfl⟩
    | cons first level => exact ⟨_, rfl⟩

theorem grow_succ {first : String} :
    grow functions (depth + 1) (first :: level) =
      ((first :: level) ::
          (grow functions depth ((edgesBelow functions (first :: level)).map (·.child))).1,
        edgesBelow functions (first :: level) ++
          (grow functions depth ((edgesBelow functions (first :: level)).map (·.child))).2) :=
  rfl

/-- The first level is above the others. -/
theorem dropLast_cons_grow (first : List String) :
    (first :: (grow functions depth level).1).dropLast =
      first :: (grow functions depth level).1.dropLast := by
  obtain ⟨later, hlater⟩ := levels_grow functions depth level
  rw [hlater, List.dropLast_cons_cons]

theorem getLastD_cons_grow (first : List String) :
    (first :: (grow functions depth level).1).getLastD [] =
      (grow functions depth level).1.getLastD [] := by
  obtain ⟨later, hlater⟩ := levels_grow functions depth level
  rw [hlater, List.getLastD_cons, List.getLastD_cons, List.getLastD_cons]

theorem mem_edges_grow : edge ∈ (grow functions depth level).2 ↔
    edge.parent ∈ (grow functions depth level).1.dropLast.flatten ∧ edge.function ∈ functions ∧
      edge.child = edge.parent ++ "_" ++ edge.function := by
  induction depth generalizing level with
  | zero => simp [grow]
  | succ depth ih =>
    cases level with
    | nil => simp [grow]
    | cons first level =>
      rw [grow_succ, dropLast_cons_grow, List.flatten_cons, List.mem_append, List.mem_append, ih,
        mem_edgesBelow, or_and_right]

theorem child_mem_grow (h : edge ∈ (grow functions depth level).2) :
    edge.child ∈ (grow functions depth level).1.flatten := by
  induction depth generalizing level with
  | zero => cases h
  | succ depth ih =>
    cases level with
    | nil => cases h
    | cons first level =>
      rw [grow_succ] at h ⊢
      refine List.mem_append_right _ ?_
      rcases List.mem_append.1 h with hbelow | hlater
      · obtain ⟨later, hlevels⟩ := levels_grow functions depth
          ((edgesBelow functions (first :: level)).map (·.child))
        rw [hlevels]
        exact List.mem_append_left _ (List.mem_map_of_mem hbelow)
      · exact ih hlater

/-- A path from a constant of the first level goes down one level with each function. -/
theorem named_mem_grow {constant : String} {path : List String} (hconstant : constant ∈ level)
    (hpath : path ⊆ functions) :
    (path.length < depth →
        named constant path ∈ (grow functions depth level).1.dropLast.flatten) ∧
      (path.length = depth → named constant path ∈ (grow functions depth level).1.getLastD []) := by
  induction depth generalizing level constant path with
  | zero =>
    refine ⟨fun h => absurd h (Nat.not_lt_zero _), fun h => ?_⟩
    rw [List.length_eq_zero_iff.1 h]
    exact hconstant
  | succ depth ih =>
    obtain ⟨first, level, rfl⟩ := List.exists_cons_of_ne_nil (List.ne_nil_of_mem hconstant)
    rw [grow_succ, dropLast_cons_grow, getLastD_cons_grow]
    cases path with
    | nil =>
      refine ⟨fun _ => List.mem_append_left _ hconstant, fun h => ?_⟩
      cases h
    | cons function path =>
      obtain ⟨hfunction, hpath⟩ := List.cons_subset.1 hpath
      have hbelow := ih (child_mem_children hconstant hfunction) hpath
      rw [named_cons]
      refine ⟨fun h => List.mem_append_right _ (hbelow.1 ?_), fun h => hbelow.2 ?_⟩
      · exact Nat.lt_of_succ_lt_succ h
      · exact Nat.succ.inj h

/-! ## The tree over a root -/

variable {root : String}

/-- There is an edge for each constant above the last level and each function. -/
theorem mem_edges_ofRoot : edge ∈ (ofRoot root functions depth).edges ↔
    edge.parent ∈ (ofRoot root functions depth).inner ∧ edge.function ∈ functions ∧
      edge.child = edge.parent ++ "_" ++ edge.function :=
  mem_edges_grow

theorem child_mem_constants (h : edge ∈ (ofRoot root functions depth).edges) :
    edge.child ∈ (ofRoot root functions depth).constants :=
  child_mem_grow h

theorem path_mem_inner {path : List String} (hpath : path ⊆ functions)
    (hlength : path.length < depth) : named root path ∈ (ofRoot root functions depth).inner :=
  (named_mem_grow (List.mem_singleton.2 rfl) hpath).1 hlength

theorem path_mem_leaves {path : List String} (hpath : path ⊆ functions)
    (hlength : path.length = depth) : named root path ∈ (ofRoot root functions depth).leaves :=
  (named_mem_grow (List.mem_singleton.2 rfl) hpath).2 hlength

end Tree

end Groundwork
