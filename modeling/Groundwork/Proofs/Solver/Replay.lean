import Groundwork.Proofs.Solver.History

/-!
# Solvers that were given the same clauses

What a solver found last has no influence on what it does next.  Apart from that, a solver is
the one that was given the same clauses afresh, as long as it was never asked about atoms
beyond those of its clauses.

* `add_forget`, `solve_forget`: a solver takes clauses and decides as if it had found nothing;
* `forget_solve`: a decision about atoms that are known leaves no trace;
* `atom_le_ofClauses`: the atoms of the clauses are known.
-/

namespace Groundwork.Solver

/-- The solver without what it found last. -/
def forget (s : Solver) : Solver :=
  { s with model := none, core := [] }

theorem add_forget {c : Clause} (h : ∀ l ∈ c, Literal.Proper l) (s : Solver) :
    s.forget.add c = ((s.add c).1, (s.add c).2.forget) := by
  have hne : ∀ l ∈ c, l ≠ 0 := fun l hl => (h l hl).1
  rw [add_eq hne, add_eq hne]
  dsimp only
  split
  · rfl
  · split <;> rfl

/-- A decision overwrites what was found before. -/
theorem solve_forget {assumptions : List Literal} (h : ∀ l ∈ assumptions, Literal.Proper l)
    (s : Solver) : s.forget.solve assumptions = s.solve assumptions := by
  have hne : ∀ l ∈ assumptions, l ≠ 0 := fun l hl => (h l hl).1
  rw [solve_eq hne, solve_eq hne]
  rfl

theorem forget_solve {s : Solver} {assumptions : List Literal}
    (h : ∀ l ∈ assumptions, Literal.Proper l)
    (hknown : ∀ l ∈ assumptions, Literal.atom l ≤ s.atoms) :
    (s.solve assumptions).2.forget = s.forget := by
  have hatoms : assumptions.foldl (fun n l => max n (Literal.atom l)) s.atoms = s.atoms :=
    Nat.le_antisymm (foldl_max_le (Nat.le_refl _) hknown) (le_foldl_max _ _).1
  rw [solve_eq fun l hl => (h l hl).1, hatoms]
  dsimp only
  split <;> rfl

/-- The solver that was given the clauses and nothing else. -/
def ofClauses (minimise : Bool) (clauses : List Clause) : Solver :=
  run minimise (clauses.map .add)

theorem ofClauses_append (minimise : Bool) (clauses new : List Clause) :
    ofClauses minimise (clauses ++ new) =
      (new.map Call.add).foldl Solver.after (ofClauses minimise clauses) := by
  rw [ofClauses, ofClauses, run, run, List.map_append, List.foldl_append]

/-- The induction is on the clauses, from the first on. -/
theorem foldl_add_forget {clauses : List Clause} (h : ∀ c ∈ clauses, ∀ l ∈ c, Literal.Proper l)
    (s : Solver) : ((clauses.map Call.add).foldl Solver.after s).forget =
      (clauses.map Call.add).foldl Solver.after s.forget := by
  induction clauses generalizing s with
  | nil => rfl
  | cons c clauses ih =>
    have hc := h c List.mem_cons_self
    have hstep : s.forget.after (.add c) = (s.after (.add c)).forget :=
      congrArg Prod.snd (add_forget hc s)
    rw [List.map_cons, List.foldl_cons, List.foldl_cons, hstep]
    exact ih (fun c' hc' => h c' (List.mem_cons_of_mem _ hc')) _

theorem given_map_add (clauses : List Clause) (g : Given) :
    (clauses.map Call.add).foldl Given.note g =
      { clauses := g.clauses ++ clauses, literals := g.literals ++ clauses.flatten } := by
  induction clauses generalizing g with
  | nil => simp
  | cons c clauses ih =>
    rw [List.map_cons, List.foldl_cons, ih]
    simp [Given.note]

theorem atom_le_ofClauses (minimise : Bool) {clauses : List Clause}
    (h : ∀ c ∈ clauses, ∀ l ∈ c, Literal.Proper l) {c : Clause} (hc : c ∈ clauses) {l : Literal}
    (hl : l ∈ c) : Literal.atom l ≤ (ofClauses minimise clauses).atoms := by
  have hproper : ∀ call ∈ clauses.map Call.add, call.Proper := by
    intro call hcall
    obtain ⟨c, hc, rfl⟩ := List.mem_map.1 hcall
    exact h c hc
  have hrecords := (records_run minimise hproper).atoms
  rw [given, given_map_add] at hrecords
  rw [ofClauses, hrecords]
  exact atom_le_greatestAtom (List.mem_append_right _ (List.mem_flatten_of_mem hc hl))

end Groundwork.Solver
