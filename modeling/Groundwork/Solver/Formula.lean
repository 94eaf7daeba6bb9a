import Groundwork.Literal
import Groundwork.Roster
import Std.Data.HashMap

/-!
# Formulas

A formula is some clauses with an index that leads from each atom to the clauses in
which it occurs.  `Formula.mem_clausesWith` says that the index is right: it finds a
clause under an atom exactly if the atom occurs in it.
-/

namespace Groundwork

namespace Clause

/-- The atoms of the literals of a clause. -/
def atoms (c : Clause) : List Nat :=
  c.map Literal.atom

end Clause

namespace Formula

/-- Notes a clause under an atom. -/
def note (c : Clause) (atom : Nat) (index : Std.HashMap Nat (List Clause)) :
    Std.HashMap Nat (List Clause) :=
  index.insert atom (c :: index.getD atom [])

/-- The clauses in which each atom occurs. -/
def indexOf (clauses : List Clause) : Std.HashMap Nat (List Clause) :=
  clauses.foldr (fun c index => (Clause.atoms c).foldr (note c) index) ∅

theorem mem_getD_note {c d : Clause} {atom a : Nat} {index : Std.HashMap Nat (List Clause)} :
    d ∈ (note c atom index).getD a [] ↔ d = c ∧ a = atom ∨ d ∈ index.getD a [] := by
  rw [note, Std.HashMap.getD_insert]
  by_cases same : a = atom
  · simp [same]
  · simp [same, Ne.symm same]

theorem mem_getD_foldr_note {c d : Clause} {atoms : List Nat} {a : Nat}
    {index : Std.HashMap Nat (List Clause)} :
    d ∈ (atoms.foldr (note c) index).getD a [] ↔ d = c ∧ a ∈ atoms ∨ d ∈ index.getD a [] := by
  induction atoms with
  | nil => simp
  | cons atom atoms ih =>
    simp only [List.foldr_cons, mem_getD_note, ih, List.mem_cons, and_or_left, or_assoc]

theorem mem_getD_indexOf {clauses : List Clause} {d : Clause} {a : Nat} :
    d ∈ (indexOf clauses).getD a [] ↔ d ∈ clauses ∧ a ∈ Clause.atoms d := by
  induction clauses with
  | nil => simp [indexOf]
  | cons c clauses ih =>
    have first : indexOf (c :: clauses) = (Clause.atoms c).foldr (note c) (indexOf clauses) := rfl
    simp only [first, mem_getD_foldr_note, ih, List.mem_cons, or_and_right]
    refine or_congr_left ⟨fun h => ?_, fun h => ?_⟩
    · exact ⟨h.1, h.1 ▸ h.2⟩
    · exact ⟨h.1, h.1 ▸ h.2⟩

end Formula

/-- Clauses with an index of their atoms. -/
structure Formula where
  clauses : List Clause
  /-- The clauses in which each atom occurs. -/
  index : Std.HashMap Nat (List Clause)
  /-- The atoms that occur, in increasing order. -/
  atoms : List Nat
  mem_index : ∀ c a, c ∈ index.getD a [] ↔ c ∈ clauses ∧ a ∈ Clause.atoms c
  mem_atoms : ∀ a, a ∈ atoms ↔ ∃ c ∈ clauses, a ∈ Clause.atoms c
  sorted : atoms.Pairwise (· ≤ ·)

namespace Formula

/-- The formula of some clauses. -/
def ofClauses (clauses : List Clause) : Formula where
  clauses := clauses
  index := indexOf clauses
  atoms := (Roster.ofList (clauses.flatMap Clause.atoms)).toList.mergeSort
  mem_index _ _ := mem_getD_indexOf
  mem_atoms a := by
    rw [List.mem_mergeSort, Roster.mem_toList_ofList, List.mem_flatMap]
  sorted := by
    refine (List.pairwise_mergeSort (fun a b c ab bc => ?_) (fun a b => ?_) _).imp of_decide_eq_true
    · exact decide_eq_true (Nat.le_trans (of_decide_eq_true ab) (of_decide_eq_true bc))
    · simpa using Nat.le_total a b

/-- The clauses in which an atom occurs. -/
def clausesWith (f : Formula) (atom : Nat) : List Clause :=
  f.index.getD atom []

theorem mem_clausesWith {f : Formula} {c : Clause} {atom : Nat} :
    c ∈ f.clausesWith atom ↔ c ∈ f.clauses ∧ atom ∈ Clause.atoms c :=
  f.mem_index c atom

theorem clausesWith_subset (f : Formula) (atom : Nat) : f.clausesWith atom ⊆ f.clauses :=
  fun _ h => (mem_clausesWith.1 h).1

theorem flatMap_clausesWith_subset (f : Formula) (atoms : List Nat) :
    atoms.flatMap f.clausesWith ⊆ f.clauses := by
  intro c h
  obtain ⟨atom, _, hc⟩ := List.mem_flatMap.1 h
  exact f.clausesWith_subset atom hc

theorem atom_mem_atoms {f : Formula} {c : Clause} {l : Literal} (hc : c ∈ f.clauses)
    (hl : l ∈ c) : Literal.atom l ∈ f.atoms :=
  (f.mem_atoms _).2 ⟨c, hc, List.mem_map_of_mem hl⟩

end Formula

end Groundwork
