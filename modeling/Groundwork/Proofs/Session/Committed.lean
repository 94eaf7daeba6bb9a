import Groundwork.Proofs.Session.Reached

/-!
# Passes over the solver

The solver takes every clause of proper literals, so a pass for which there are enough numbers
only fails while its rules are grounded.  This module writes down the session that it leaves.

* `withClauses`, `exec_handClauses_solver`: clauses are handed over, one after the other;
* `committed`, `Coherent.exec_commit_solver`: all ground atoms of a pass are met, and then its
  clauses are handed over;
* `Coherent.unfoldInstance_eq_ok_iff`, `Coherent.exists_committed`: when all rules are unfolded, and
  what this does.
-/

namespace Groundwork.Session

variable {s : Session Solver}

/-- The session after its solver took clauses, with other counters. -/
def withClauses (s : Session Solver) (clauses : List Clause) (counters : Counters) :
    Session Solver :=
  { s with
    backend := (clauses.map Solver.Call.add).foldl Solver.after s.backend
    counters
    clauses := s.clauses ++ clauses
    stage := if clauses.isEmpty then s.stage else .input }

theorem clauses_withClauses (s : Session Solver) (clauses : List Clause) (counters : Counters) :
    (s.withClauses clauses counters).clauses.toList = s.clauses.toList ++ clauses :=
  Array.toList_appendList

/-- The solver takes all clauses, whatever it is in the middle of. -/
theorem exec_handClauses_solver {clauses : List Clause}
    (h : ∀ c ∈ clauses, ∀ l ∈ c, Literal.Proper l) (s : Session Solver) :
    ∃ counters, exec (clauses.forM handClause) s = (.ok (), s.withClauses clauses counters) := by
  induction clauses generalizing s with
  | nil => exact ⟨s.counters, by simp [withClauses]⟩
  | cons c clauses ih =>
    obtain ⟨admission, backend, hadd⟩ := Solver.accepts s.backend c (h c List.mem_cons_self)
    obtain ⟨counters, hrest⟩ :=
      ih (fun c' hc' => h c' (List.mem_cons_of_mem _ hc')) (s.taken c admission backend)
    have hstep : backend = s.backend.after (.add c) := (congrArg Prod.snd hadd).symm
    refine ⟨counters, (exec_bind_ok (exec_handClause_ok hadd)).trans (hrest.trans ?_)⟩
    simp [withClauses, taken, hstep]

/-- The session after the clauses of a pass were handed over, with other counters. -/
def committed (s : Session Solver) (grounded : List Grounded) (counters : Counters) :
    Session Solver :=
  { s with atoms := s.atoms.meetAll (mentionsOfAll grounded) }.withClauses
    (clausesOfAll (s.atoms.meetAll (mentionsOfAll grounded)) grounded) counters

theorem Coherent.exec_commit_solver {holds : Solver → List Clause → Prop} (h : s.Coherent holds)
    {grounded : List Grounded}
    (hroom : (s.atoms.meetAll (mentionsOfAll grounded)).largest ≤ maxAtom) :
    ∃ counters, exec (Session.commit grounded) s =
      (.ok (signedOfAll grounded).length, s.committed grounded counters) := by
  obtain ⟨counters, hcommit⟩ := exec_commit_of_room h hroom
  have hproper : ∀ c ∈ clausesOfAll (s.atoms.meetAll (mentionsOfAll grounded)) grounded,
      ∀ l ∈ c, Literal.Proper l := fun c hc l hl =>
    AtomTable.Sound.proper hroom (names_of_mem_clausesOfAll h.sound hroom hc hl)
  obtain ⟨counters', hhand⟩ := exec_handClauses_solver hproper
    (s.encoded (s.atoms.meetAll (mentionsOfAll grounded)) counters)
  exact ⟨counters', hcommit.trans (exec_bind_ok hhand)⟩

/-! ## Passes over the instance -/

theorem Coherent.unfolded {β : Type} {holds : β → List Clause → Prop} {s : Session β}
    (h : s.Coherent holds) (rules : Nat) : (s.unfolded rules).Coherent holds :=
  ofInstance_coherent holds s _ ⟨rfl, rfl, rfl, Or.inl rfl⟩ h

section UnfoldInstance

variable {β : Type} [Backend β] {s : Session β}

theorem exec_unfoldInstance_ok {grounded : List Grounded}
    (h : (s.grounder []).groundAll s.strategy s.rules.toList = .ok grounded) :
    exec unfoldInstance s = exec (commit grounded) (s.unfolded grounded.length) := by
  unfold unfoldInstance
  rw [exec_bind, exec_get]
  dsimp only
  rw [h]
  rfl

theorem exec_unfoldInstance_error {e : GroundError}
    (h : (s.grounder []).groundAll s.strategy s.rules.toList = .error e) :
    exec unfoldInstance s = (.error (.ground e), s) := by
  unfold unfoldInstance
  rw [exec_bind, exec_get]
  dsimp only
  rw [h]
  rfl

end UnfoldInstance

/-- What a pass over the instance did, if it succeeded. -/
structure Unfolds (s t : Session Solver) (grounded : List Grounded) : Prop where
  grounded_eq : (s.grounder []).groundAll s.strategy s.rules.toList = .ok grounded
  room : (s.atoms.meetAll (mentionsOfAll grounded)).largest ≤ maxAtom
  atoms_eq : t.atoms = s.atoms.meetAll (mentionsOfAll grounded)
  clauses_eq : t.clauses.toList = s.clauses.toList ++ clausesOfAll t.atoms grounded

section

variable {holds : Solver → List Clause → Prop} {s : Session Solver} {grounded : List Grounded}

theorem Coherent.exec_unfoldInstance_committed (h : s.Coherent holds)
    (hground : (s.grounder []).groundAll s.strategy s.rules.toList = .ok grounded)
    (hroom : (s.atoms.meetAll (mentionsOfAll grounded)).largest ≤ maxAtom) :
    ∃ counters, exec unfoldInstance s =
      (.ok (signedOfAll grounded).length, s.committed grounded counters) := by
  rw [exec_unfoldInstance_ok hground]
  exact (h.unfolded grounded.length).exec_commit_solver hroom

theorem Coherent.unfolds (h : s.Coherent holds)
    (hground : (s.grounder []).groundAll s.strategy s.rules.toList = .ok grounded)
    (hroom : (s.atoms.meetAll (mentionsOfAll grounded)).largest ≤ maxAtom) :
    (exec unfoldInstance s).1 = .ok (signedOfAll grounded).length ∧
      s.Unfolds (exec unfoldInstance s).2 grounded := by
  obtain ⟨counters, hrun⟩ := h.exec_unfoldInstance_committed hground hroom
  rw [hrun]
  exact ⟨rfl, hground, hroom, rfl, clauses_withClauses _ _ counters⟩

/-- A pass succeeds exactly if all rules can be grounded and there are enough numbers. -/
theorem Coherent.unfoldInstance_eq_ok_iff (h : s.Coherent holds) {n : Nat} :
    (exec unfoldInstance s).1 = .ok n ↔
      ∃ grounded, s.Unfolds (exec unfoldInstance s).2 grounded ∧
        n = (signedOfAll grounded).length := by
  constructor
  · intro hn
    cases hground : (s.grounder []).groundAll s.strategy s.rules.toList with
    | error e =>
      rw [exec_unfoldInstance_error hground] at hn
      cases hn
    | ok grounded =>
      by_cases hroom : (s.atoms.meetAll (mentionsOfAll grounded)).largest ≤ maxAtom
      · obtain ⟨hcount, hunfolds⟩ := h.unfolds hground hroom
        rw [hcount, Except.ok.injEq] at hn
        exact ⟨grounded, hunfolds, hn.symm⟩
      · obtain ⟨_, _, _, hcommit, _⟩ := (h.unfolded grounded.length).exec_commit_error hroom
        rw [exec_unfoldInstance_ok hground, hcommit] at hn
        cases hn
  · intro h
    obtain ⟨grounded, hunfolds, rfl⟩ := h
    exact (h.unfolds hunfolds.grounded_eq hunfolds.room).1

/-- A pass that succeeds hands over what was grounded. -/
theorem Coherent.exists_committed (h : s.Coherent holds) {n : Nat} {t : Session Solver}
    (hrun : exec unfoldInstance s = (.ok n, t)) : ∃ grounded counters,
      (s.grounder []).groundAll s.strategy s.rules.toList = .ok grounded ∧
      (s.atoms.meetAll (mentionsOfAll grounded)).largest ≤ maxAtom ∧
      n = (signedOfAll grounded).length ∧ t = s.committed grounded counters := by
  obtain ⟨grounded, hunfolds, hn⟩ := h.unfoldInstance_eq_ok_iff.1 (congrArg Prod.fst hrun)
  obtain ⟨counters, hcommit⟩ :=
    h.exec_unfoldInstance_committed hunfolds.grounded_eq hunfolds.room
  rw [hrun, Prod.mk.injEq] at hcommit
  exact ⟨grounded, counters, hunfolds.grounded_eq, hunfolds.room, hn, hcommit.2⟩

end

end Groundwork.Session
