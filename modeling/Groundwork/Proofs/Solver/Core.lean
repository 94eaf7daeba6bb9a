import Groundwork.Proofs.Solver.History

/-!
# Cores of assumptions

A core is what remains of refuted assumptions when some are left out.  An assumption is
only tried once, while more of the others are still there than in the end, so that a core
is minimal rests on one fact: fewer assumptions are no harder to satisfy.

* `prune_sublist`, `not_satisfiable_prune` and `prune_minimal` say what the deletion loop
  does, each by induction on the assumptions it has not tried yet.
* `IsCore` says when a core is right, and `isCore_of_unsatisfiable` that every core is,
  over every history of calls.
-/

namespace Groundwork.Solver

variable {f : Formula}

/-- The deletion loop only leaves out. -/
theorem prune_sublist (f : Formula) (kept rest : List Literal) :
    (prune f kept rest).Sublist (kept ++ rest) := by
  induction rest generalizing kept with
  | nil => simp [prune]
  | cons l rest ih =>
    rw [prune]
    split
    · exact (ih kept).trans ((List.sublist_cons_self l rest).append_left kept)
    · have hkeep := ih (kept ++ [l])
      rwa [List.append_assoc] at hkeep

/-- What is left out is not missed in the refutation. -/
theorem not_satisfiable_prune {kept rest : List Literal}
    (h : ¬ Satisfiable f.clauses (kept ++ rest)) : ¬ Satisfiable f.clauses (prune f kept rest) := by
  induction rest generalizing kept with
  | nil =>
    rw [prune]
    rwa [List.append_nil] at h
  | cons l rest ih =>
    rw [prune]
    split
    · next hrefuted => exact ih ((f.refutes_iff _).1 hrefuted)
    · refine ih ?_
      rwa [List.append_assoc]

/-- Each literal that is kept is missed, and stays so while others are left out. -/
theorem prune_minimal {kept rest : List Literal}
    (h : ∀ i < kept.length, Satisfiable f.clauses (kept.eraseIdx i ++ rest)) :
    ∀ i < (prune f kept rest).length, Satisfiable f.clauses ((prune f kept rest).eraseIdx i) := by
  induction rest generalizing kept with
  | nil =>
    rw [prune]
    intro i hi
    have hkept := h i hi
    rwa [List.append_nil] at hkept
  | cons l rest ih =>
    rw [prune]
    split
    · refine ih fun i hi => (h i hi).mono ?_
      exact ((List.sublist_cons_self l rest).append_left _).subset
    · next hrefuted =>
      have hneeded : Satisfiable f.clauses (kept ++ rest) := by
        rw [f.refutes_iff] at hrefuted
        exact Classical.not_not.1 hrefuted
      refine ih fun i hi => ?_
      rw [List.length_append, List.length_singleton] at hi
      rcases Nat.lt_or_ge i kept.length with hlt | hge
      · rw [List.eraseIdx_append_of_lt_length hlt, List.append_assoc]
        exact h i hlt
      · have hlast : i = kept.length := by omega
        rw [List.eraseIdx_append_of_length_le hge, hlast, Nat.sub_self]
        simpa using hneeded

/-- A core is refuted like the assumptions it comes from. -/
theorem not_satisfiable_coreOf {assumptions : List Literal}
    (h : ¬ Satisfiable f.clauses assumptions) (minimise : Bool) :
    ¬ Satisfiable f.clauses (coreOf f minimise assumptions) := by
  unfold coreOf
  split
  · next hrefuted => exact (f.refutes_iff []).1 hrefuted
  · split
    · exact not_satisfiable_prune (by rwa [List.nil_append])
    · exact h

theorem coreOf_sublist (f : Formula) (minimise : Bool) (assumptions : List Literal) :
    (coreOf f minimise assumptions).Sublist assumptions := by
  unfold coreOf
  split
  · exact List.nil_sublist assumptions
  · split
    · exact prune_sublist f [] assumptions
    · exact List.Sublist.refl assumptions

/-- The core is empty only if the clauses alone are refuted. -/
theorem coreOf_eq_nil_iff {assumptions : List Literal} (h : ¬ Satisfiable f.clauses assumptions)
    (minimise : Bool) : coreOf f minimise assumptions = [] ↔ ¬ Satisfiable f.clauses [] := by
  constructor
  · intro hnil
    have hcore := not_satisfiable_coreOf h minimise
    rwa [hnil] at hcore
  · intro hnot
    rw [coreOf, if_pos ((f.refutes_iff []).2 hnot)]

theorem coreOf_minimal {assumptions : List Literal} :
    ∀ i < (coreOf f true assumptions).length,
      Satisfiable f.clauses ((coreOf f true assumptions).eraseIdx i) := by
  unfold coreOf
  split
  · intro i hi
    simp at hi
  · rw [if_pos rfl]
    exact prune_minimal (by simp)

/-- Without minimisation the core is all or nothing. -/
theorem coreOf_false {assumptions : List Literal} (h : coreOf f false assumptions ≠ []) :
    coreOf f false assumptions = assumptions := by
  unfold coreOf at h ⊢
  split
  · next hrefuted =>
    rw [if_pos hrefuted] at h
    exact absurd rfl h
  · rfl

theorem core_solve {s : Solver} {g : Given} (h : Records s g) {assumptions : List Literal}
    (hassumptions : ∀ l ∈ assumptions, Literal.Proper l)
    (hnot : ¬ Satisfiable g.clauses assumptions) :
    (s.solve assumptions).2.core = coreOf s.formula s.minimise assumptions := by
  have hnone : s.formula.solve? assumptions = none := by
    rw [Formula.solve?_eq_none_iff, h.satisfiable_iff]
    exact hnot
  rw [solve_eq fun l hl => (hassumptions l hl).1, hnone]

/-- What it means that a core of refuted assumptions is right. -/
structure IsCore (minimise : Bool) (clauses : List Clause) (assumptions core : List Literal) :
    Prop where
  sublist : core.Sublist assumptions
  refuted : ¬ Satisfiable clauses core
  eq_nil_iff : core = [] ↔ ¬ Satisfiable clauses []
  /-- If cores are made minimal, no element can be left out. -/
  minimal : minimise = true → ∀ i < core.length, Satisfiable clauses (core.eraseIdx i)
  /-- If they are not, the core is nothing or all. -/
  whole : minimise = false → core ≠ [] → core = assumptions

/-- After every history of calls, the core that an unsatisfiable answer leaves behind is
right about the clauses given since the last reset. -/
theorem isCore_of_unsatisfiable (minimise : Bool) (calls : List Call)
    (hcalls : ∀ call ∈ calls, call.Proper) (assumptions : List Literal)
    (hassumptions : ∀ l ∈ assumptions, Literal.Proper l)
    (hunsat : ((run minimise calls).solve assumptions).1 = .ok .unsatisfiable) :
    IsCore minimise (given calls).clauses assumptions
      ((run minimise calls).solve assumptions).2.core := by
  have hrecords := records_run minimise hcalls
  have hnot := (solve_eq_unsatisfiable_iff hrecords hassumptions).1 hunsat
  have hformula : ¬ Satisfiable (run minimise calls).formula.clauses assumptions := by
    rwa [hrecords.satisfiable_iff]
  rw [core_solve hrecords hassumptions hnot, minimise_run minimise hcalls]
  refine ⟨coreOf_sublist _ _ _, ?_, ?_, ?_, ?_⟩
  · rw [← hrecords.satisfiable_iff]
    exact not_satisfiable_coreOf hformula _
  · rw [← hrecords.satisfiable_iff]
    exact coreOf_eq_nil_iff hformula _
  · rintro rfl i hi
    rw [← hrecords.satisfiable_iff]
    exact coreOf_minimal i hi
  · rintro rfl hne
    exact coreOf_false hne

/-- Two of five assumptions clash, one of them given twice. -/
theorem isCore_of_unsatisfiable_pair :
    ((run true [.add [-1, -2], .add [3, 4]]).solve [3, 1, 4, 2, 1]).1 = .ok .unsatisfiable ∧
      IsCore true (given [.add [-1, -2], .add [3, 4]]).clauses [3, 1, 4, 2, 1]
        ((run true [.add [-1, -2], .add [3, 4]]).solve [3, 1, 4, 2, 1]).2.core := by
  have hcalls : ∀ call ∈ [Call.add [-1, -2], .add [3, 4]], call.Proper := by decide
  have hassumptions : ∀ l ∈ ([3, 1, 4, 2, 1] : List Literal), Literal.Proper l := by decide
  have hunsat : ((run true [.add [-1, -2], .add [3, 4]]).solve [3, 1, 4, 2, 1]).1 =
      .ok .unsatisfiable := by
    rw [solve_eq_unsatisfiable_iff (records_run true hcalls) hassumptions]
    intro h
    obtain ⟨v, hclauses, hall⟩ := h
    have h1 : v 1 = true := hall 1 (by decide)
    have h2 : v 2 = true := hall 2 (by decide)
    obtain ⟨l, hl, hholds⟩ := hclauses [-1, -2] List.mem_cons_self
    have hcase : l = -1 ∨ l = -2 := by simpa using hl
    rcases hcase with rfl | rfl
    · have hfalse : v 1 = false := hholds
      simp [h1] at hfalse
    · have hfalse : v 2 = false := hholds
      simp [h2] at hfalse
  exact ⟨hunsat, isCore_of_unsatisfiable true _ hcalls _ hassumptions hunsat⟩

end Groundwork.Solver
