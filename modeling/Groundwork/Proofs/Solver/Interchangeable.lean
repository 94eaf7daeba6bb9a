import Groundwork.Proofs.Solver.Content

/-!
# Solvers that cannot be told apart

What calls can find out about a solver is which models its clauses have, which atoms it has met,
and what it found last.  Solvers that have this in common are interchangeable: every call is
answered alike by both, and leaves them interchangeable.  In which form the clauses were given,
and how often, is not part of it.

* `Interchangeable.add`, `Interchangeable.solve`, `Interchangeable.reset`: the calls;
* `Covers`: a clause that would tell the solver nothing new;
* `interchangeable_addAll`: clauses that a solver was given may be given to it again.
-/

namespace Groundwork.Solver

/-- No call tells the solvers apart. -/
structure Interchangeable (s t : Solver) : Prop where
  models : ∀ v, s.formula.Models v ↔ t.formula.Models v
  atoms_eq : s.atoms = t.atoms
  minimise_eq : s.minimise = t.minimise
  model_eq : s.model = t.model
  core_eq : s.core = t.core

variable {s t u : Solver} {c d : Clause}

theorem Interchangeable.refl (s : Solver) : Interchangeable s s :=
  ⟨fun _ => Iff.rfl, rfl, rfl, rfl, rfl⟩

theorem Interchangeable.trans (hst : Interchangeable s t) (htu : Interchangeable t u) :
    Interchangeable s u :=
  ⟨fun v => (hst.models v).trans (htu.models v), hst.atoms_eq.trans htu.atoms_eq,
    hst.minimise_eq.trans htu.minimise_eq, hst.model_eq.trans htu.model_eq,
    hst.core_eq.trans htu.core_eq⟩

/-! ## Calls -/

/-- The induction is on the literals, up to a zero. -/
theorem Interchangeable.noteAtoms (h : Interchangeable s t) (literals : List Literal) :
    Interchangeable (s.noteAtoms literals).2 (t.noteAtoms literals).2 := by
  induction literals generalizing s t with
  | nil => exact h
  | cons l literals ih =>
    rw [Solver.noteAtoms, Solver.noteAtoms]
    split
    · exact h
    · exact ih ⟨h.models, congrArg (max · (Literal.atom l)) h.atoms_eq, h.minimise_eq, h.model_eq,
        h.core_eq⟩

theorem Interchangeable.add (h : Interchangeable s t) (c : Clause) :
    (s.add c).1 = (t.add c).1 ∧ Interchangeable (s.add c).2 (t.add c).2 := by
  by_cases hzero : 0 ∈ c
  · rw [add_of_zero hzero, add_of_zero hzero]
    exact ⟨rfl, h.noteAtoms c⟩
  have hc : ∀ l ∈ c, l ≠ 0 := fun l hl hl0 => hzero (hl0 ▸ hl)
  obtain ⟨hatoms, hminimise, hmodel, hcore⟩ := add_fields (s := s) hc
  obtain ⟨hatoms', hminimise', hmodel', hcore'⟩ := add_fields (s := t) hc
  refine ⟨?_, fun v => ?_, ?_, ?_, ?_, ?_⟩
  · rw [add_eq hc, add_eq hc]
    dsimp only
    split
    · rfl
    · split <;> rfl
  · rw [models_add hc, models_add hc, h.models v]
  · rw [hatoms, hatoms', h.atoms_eq]
  · rw [hminimise, hminimise', h.minimise_eq]
  · rw [hmodel, hmodel', h.model_eq]
  · rw [hcore, hcore', h.core_eq]

theorem Interchangeable.solve (h : Interchangeable s t) (assumptions : List Literal) :
    (s.solve assumptions).1 = (t.solve assumptions).1 ∧
      Interchangeable (s.solve assumptions).2 (t.solve assumptions).2 := by
  by_cases hzero : 0 ∈ assumptions
  · rw [solve_of_zero hzero, solve_of_zero hzero]
    exact ⟨rfl, h.noteAtoms assumptions⟩
  have hne : ∀ l ∈ assumptions, l ≠ 0 := fun l hl hl0 => hzero (hl0 ▸ hl)
  have hatoms := congrArg
    (fun n => assumptions.foldl (fun n l => max n (Literal.atom l)) n) h.atoms_eq
  have hnone := Formula.isNone_solve?_congr h.models assumptions
  cases hp : s.formula.solve? assumptions with
  | none =>
    rw [solve_of_eq_none hne hp, solve_of_eq_none hne (hnone.1 hp)]
    refine ⟨rfl, h.models, hatoms, h.minimise_eq, rfl, ?_⟩
    show coreOf s.formula s.minimise assumptions = coreOf t.formula t.minimise assumptions
    rw [coreOf_congr h.models, h.minimise_eq]
  | some p =>
    cases hp' : t.formula.solve? assumptions with
    | none =>
      rw [hnone.2 hp'] at hp
      cases hp
    | some p' =>
      rw [solve_of_eq_some hne hp, solve_of_eq_some hne hp']
      refine ⟨rfl, h.models, hatoms, h.minimise_eq, ?_, rfl⟩
      have hsame := Formula.Found.assignment_congr h.models (Formula.found_of_solve? hp)
        (Formula.found_of_solve? hp')
      simp only [Position.model, hsame, h.atoms_eq]

theorem Interchangeable.reset (h : Interchangeable s t) : Interchangeable s.reset t.reset := by
  rw [Solver.reset, Solver.reset, h.minimise_eq]
  exact .refl _

/-! ## Clauses that are given again -/

/-- The clause would tell the solver nothing new. -/
structure Covers (s : Solver) (c : Clause) : Prop where
  nonZero : ∀ l ∈ c, l ≠ 0
  atom_le : ∀ l ∈ c, Literal.atom l ≤ s.atoms
  holds : ∀ v, s.formula.Models v → isTautology c = false → Clause.Holds v c

theorem covers_add (hc : ∀ l ∈ c, l ≠ 0) : Covers (s.add c).2 c := by
  refine ⟨hc, fun l hl => ?_, fun v hv => ((models_add hc v).1 hv).2⟩
  rw [(add_fields hc).1]
  exact (le_foldl_max c s.atoms).2 l hl

theorem Covers.add (h : Covers s c) (hd : ∀ l ∈ d, l ≠ 0) : Covers (s.add d).2 c := by
  refine ⟨h.nonZero, fun l hl => ?_, fun v hv => h.holds v ((models_add hd v).1 hv).1⟩
  rw [(add_fields hd).1]
  exact Nat.le_trans (h.atom_le l hl) (le_foldl_max d s.atoms).1

theorem Covers.interchangeable (h : Covers s c) : Interchangeable s (s.add c).2 := by
  obtain ⟨hatoms, hminimise, hmodel, hcore⟩ := add_fields (s := s) h.nonZero
  refine ⟨fun v => ?_, ?_, hminimise.symm, hmodel.symm, hcore.symm⟩
  · rw [models_add h.nonZero]
    exact (and_iff_left_of_imp (h.holds v)).symm
  · rw [hatoms, foldl_max_eq h.atom_le]

/-- The solver after some more clauses. -/
def addAll (s : Solver) (clauses : List Clause) : Solver :=
  (clauses.map Call.add).foldl after s

theorem covers_addAll {clauses : List Clause} (hclauses : ∀ c ∈ clauses, ∀ l ∈ c, l ≠ 0)
    (s : Solver) : ∀ c, c ∈ clauses ∨ Covers s c → Covers (s.addAll clauses) c := by
  induction clauses generalizing s with
  | nil => exact fun c hc => hc.resolve_left List.not_mem_nil
  | cons d clauses ih =>
    have hd := hclauses d List.mem_cons_self
    refine fun c hc => ih (fun c' hc' => hclauses c' (List.mem_cons_of_mem _ hc')) (s.add d).2 c ?_
    rcases hc with hc | hc
    · rcases List.mem_cons.1 hc with rfl | hc
      · exact .inr (covers_add hd)
      · exact .inl hc
    · exact .inr (hc.add hd)

theorem interchangeable_addAll {clauses : List Clause} {s : Solver}
    (hclauses : ∀ c ∈ clauses, Covers s c) : Interchangeable s (s.addAll clauses) := by
  induction clauses generalizing s with
  | nil => exact .refl s
  | cons d clauses ih =>
    have hd := hclauses d List.mem_cons_self
    refine hd.interchangeable.trans (ih fun c hc => ?_)
    exact (hclauses c (List.mem_cons_of_mem _ hc)).add hd.nonZero

/-- Clauses that were given may be given again. -/
theorem interchangeable_addAgain {clauses : List Clause} (hclauses : ∀ c ∈ clauses, ∀ l ∈ c, l ≠ 0)
    (s : Solver) : Interchangeable (s.addAll clauses) ((s.addAll clauses).addAll clauses) :=
  interchangeable_addAll fun c hc => covers_addAll hclauses s c (.inl hc)

end Groundwork.Solver
