import Groundwork.Proofs.Solver.Core
import Groundwork.Proofs.Solver.Least

/-!
# Deciding again under what was found

What a solver finds can be assumed.  A core is refuted again, and is its own core.  Literals of a
model, as long as they are no fewer than the assumptions that led to it, lead to it again.  In
both cases the solver stays as it is.

* `prune_of_minimal`, `coreOf_coreOf`: nothing is left out of a minimal core, since without any
  one of its elements the others can be true;
* `Formula.solve?_of_holds`: assumptions that the assignment makes true anyway do not lead the
  search to another one, although they are given their values first;
* `solve_core`, `solve_model`: what this means for a solver.
-/

namespace Groundwork

/-- The search decides for false where it can, so an assignment is found again if it is still
allowed and nothing new is.  The induction is on the atoms, with all lesser ones at once. -/
theorem Formula.solve?_of_holds {f : Formula} {assumptions more : List Literal} {p : Position}
    (hp : f.solve? assumptions = some p) (hsub : assumptions ⊆ more)
    (hholds : ∀ l ∈ more, Literal.Holds p.assignment l) :
    ∃ q, f.solve? more = some q ∧ q.assignment = p.assignment := by
  obtain ⟨hmodels, hassumed⟩ := (found_of_solve? hp).solves
  cases hq : f.solve? more with
  | none => exact absurd ⟨p.assignment, hmodels, hholds⟩ ((solve?_eq_none_iff f more).1 hq)
  | some q =>
    obtain ⟨hmodels', hholds'⟩ := (found_of_solve? hq).solves
    refine ⟨q, rfl, funext fun atom => ?_⟩
    induction atom using Nat.strongRecOn with
    | ind atom ih =>
      rw [Bool.eq_iff_iff]
      constructor
      · exact (found_of_solve? hq).true_of_lesser hmodels hholds ih
      · exact (found_of_solve? hp).true_of_lesser hmodels' (fun l hl => hholds' l (hsub hl)) fun a hlt =>
          (ih a hlt).symm

namespace Solver

variable {f : Formula}

/-- Each of the literals that are tried is missed, so all of them are kept. -/
theorem prune_of_minimal {kept rest : List Literal}
    (h : ∀ i < rest.length, Satisfiable f.clauses (kept ++ rest.eraseIdx i)) :
    prune f kept rest = kept ++ rest := by
  induction rest generalizing kept with
  | nil => rw [prune, List.append_nil]
  | cons l rest ih =>
    have hneeded : Satisfiable f.clauses (kept ++ rest) := h 0 (Nat.zero_lt_succ _)
    have hkept : ¬ f.refutes (kept ++ rest) = true := by
      rw [f.refutes_iff]
      exact not_not_intro hneeded
    rw [prune, if_neg hkept, ih fun i hi => ?_, List.append_assoc, List.singleton_append]
    rw [List.append_assoc, List.singleton_append]
    exact h (i + 1) (Nat.succ_lt_succ hi)

/-- A core is its own core, whether or not it was made minimal. -/
theorem coreOf_coreOf (f : Formula) (minimise : Bool) (assumptions : List Literal) :
    coreOf f minimise (coreOf f minimise assumptions) = coreOf f minimise assumptions := by
  cases hrefuted : f.refutes [] with
  | true => simp [coreOf, hrefuted]
  | false =>
    cases minimise with
    | false => simp [coreOf, hrefuted]
    | true =>
      have hpruned : prune f [] (coreOf f true assumptions) = coreOf f true assumptions :=
        prune_of_minimal coreOf_minimal
      simpa [coreOf, hrefuted] using hpruned

variable {s t : Solver} {assumptions : List Literal}

/-- A core is refuted again, is its own core, and changes nothing. -/
theorem solve_core (h : s.solve assumptions = (.ok .unsatisfiable, t)) :
    t.solve t.core = (.ok .unsatisfiable, t) := by
  have hne : ∀ l ∈ assumptions, l ≠ 0 := ne_zero_of_solve (congrArg Prod.fst h)
  cases hp : s.formula.solve? assumptions with
  | some p =>
    rw [solve_of_eq_some hne hp] at h
    cases h
  | none =>
    rw [solve_of_eq_none hne hp] at h
    cases h
    have hsub := coreOf_sublist s.formula s.minimise assumptions
    have hnone : s.formula.solve? (coreOf s.formula s.minimise assumptions) = none := by
      rw [Formula.solve?_eq_none_iff] at hp ⊢
      exact not_satisfiable_coreOf hp s.minimise
    have hatoms := foldl_max_eq fun l hl => (le_foldl_max assumptions s.atoms).2 l (hsub.subset hl)
    rw [solve_of_eq_none (fun l hl => hne l (hsub.subset hl)) (by exact hnone), hatoms]
    congr 2
    exact coreOf_coreOf s.formula s.minimise assumptions

/-- The literals of a model are those of the atoms up to its last one that its assignment makes
true. -/
theorem holds_of_mem_model {p : Position} {n : Nat} (hn : n ≤ maxAtom + 1) {l : Literal}
    (hl : Literal.Proper l) (hmem : l ∈ p.model n) :
    Literal.atom l ≤ n ∧ Literal.Holds p.assignment l := by
  obtain ⟨a, ha, rfl⟩ := List.mem_map.1 hmem
  have hrange := List.mem_range'_1.1 ha
  have hatom := Literal.atom_ofAtom_of_le_succ (n := a) (by omega) (p.assignment a)
  have hle : a ≤ maxAtom := hatom ▸ hl.2
  refine ⟨by omega, ?_⟩
  rw [Literal.Holds, hatom, Literal.polarity_ofAtom (by omega) hle]

/-- Literals of a model lead to it again, if the assumptions that led to it are among them, and
change nothing. -/
theorem solve_model {model more : List Literal}
    (h : s.solve assumptions = (.ok .satisfiable, t)) (hmodel : t.model? = .ok model)
    (hatoms : t.atoms ≤ maxAtom + 1) (hmore : ∀ l ∈ more, Literal.Proper l)
    (hsub : assumptions ⊆ more) (hin : more ⊆ model) :
    t.solve more = (.ok .satisfiable, t) := by
  have hne : ∀ l ∈ assumptions, l ≠ 0 := ne_zero_of_solve (congrArg Prod.fst h)
  cases hp : s.formula.solve? assumptions with
  | none =>
    rw [solve_of_eq_none hne hp] at h
    cases h
  | some p =>
    rw [solve_of_eq_some hne hp] at h
    cases h
    cases hmodel
    have hall := fun l hl => holds_of_mem_model hatoms (hmore l hl) (hin hl)
    obtain ⟨q, hq, hsame⟩ := Formula.solve?_of_holds hp hsub fun l hl => (hall l hl).2
    rw [solve_of_eq_some (fun l hl => (hmore l hl).1) (by exact hq),
      foldl_max_eq fun l hl => (hall l hl).1]
    simp only [Position.model, hsame]

end Solver

end Groundwork
