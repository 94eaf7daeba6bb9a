import Groundwork.Proofs.Session.Alike
import Groundwork.Proofs.Session.Validated
import Groundwork.Proofs.Solver.Interchangeable

/-!
# Rules that are unfolded again

A pass over the instance leaves nothing for the next one to find.  All its ground atoms are known
by then, each with the first predicate that fits, so the same clauses are read off the same table.
The solver is given them once more, and cannot tell.

* `committed_again`, `Coherent.exec_unfoldInstance_again`: what a second pass does;
* `alike_withClauses`: clauses that are handed over again make no difference;
* `unfoldInstance_again`: a second pass repeats the clauses of the first one, and every session
  that operations lead to from there decides as it would have without it.
-/

namespace Groundwork

theorem Solver.bisimulation : Backend.Bisimulation Interchangeable where
  add h c := h.add c
  solve h assumptions := h.solve assumptions
  model {s t} h := by
    show s.model? = t.model?
    rw [model?, model?, h.model_eq]
  core h := h.core_eq
  reset h := h.reset

namespace Session

variable {s t : Session Solver} {grounded : List Grounded}

/-! ## The second pass -/

/-- No new ground atom is met, and the clauses of the first pass are handed over again. -/
theorem committed_again (hs : s.atoms.Sound) (grounded : List Grounded)
    (counters again : Counters) :
    (s.committed grounded counters).committed grounded again =
      (s.committed grounded counters).withClauses
        (clausesOfAll (s.atoms.meetAll (mentionsOfAll grounded)) grounded) again := by
  have hmet : (s.committed grounded counters).atoms.meetAll (mentionsOfAll grounded) =
      s.atoms.meetAll (mentionsOfAll grounded) := hs.meetAll_meetAll _
  rw [committed, hmet]
  rfl

/-- Nothing that rules are grounded by has changed, and no number is missing. -/
theorem Coherent.exec_unfoldInstance_again {holds : Solver → List Clause → Prop}
    (h : s.Coherent holds) (counters : Counters)
    (ht : (s.committed grounded counters).Coherent holds)
    (hground : (s.grounder []).groundAll s.strategy s.rules.toList = .ok grounded)
    (hroom : (s.atoms.meetAll (mentionsOfAll grounded)).largest ≤ maxAtom) :
    ∃ again, exec unfoldInstance (s.committed grounded counters) =
      (.ok (signedOfAll grounded).length, (s.committed grounded counters).withClauses
        (clausesOfAll (s.atoms.meetAll (mentionsOfAll grounded)) grounded) again) := by
  have hroom' : ((s.committed grounded counters).atoms.meetAll
      (mentionsOfAll grounded)).largest ≤ maxAtom := by
    rw [show (s.committed grounded counters).atoms.meetAll (mentionsOfAll grounded) =
      s.atoms.meetAll (mentionsOfAll grounded) from h.sound.meetAll_meetAll _]
    exact hroom
  obtain ⟨again, hrun⟩ := ht.exec_unfoldInstance_committed hground hroom'
  rw [committed_again h.sound] at hrun
  exact ⟨again, hrun⟩

/-- The solver cannot tell that it was given the clauses twice. -/
theorem alike_withClauses {clauses : List Clause} (hclauses : ∀ c ∈ clauses, ∀ l ∈ c, l ≠ 0)
    (s : Session Solver) (counters again : Counters) :
    Alike Solver.Interchangeable (s.withClauses clauses counters)
      ((s.withClauses clauses counters).withClauses clauses again) := by
  have hstage : (if clauses.isEmpty then (s.withClauses clauses counters).stage else .input) =
      (s.withClauses clauses counters).stage := by
    cases clauses <;> rfl
  refine ⟨_, (s.withClauses clauses counters).clauses ++ clauses, again,
    Solver.interchangeable_addAgain hclauses s.backend, ?_⟩
  rw [withClauses, hstage]
  rfl

/-- Unfolding all rules again appends the clauses of the last pass once more, and changes no ground
atom and no predicate.  It makes no difference to later decisions, whichever operations come
before them. -/
theorem unfoldInstance_again (hs : s.Arises) {n : Nat} (h : exec unfoldInstance s = (.ok n, t)) :
    ∃ u, exec unfoldInstance t = (.ok n, u) ∧ n ≤ t.clauses.size ∧
      u.clauses.toList = t.clauses.toList ++ t.clauses.toList.drop (t.clauses.size - n) ∧
      u.atoms = t.atoms ∧
      ∀ (ops : List Operation) (assumptions : List String),
        (exec (solveWith assumptions) (ops.foldl Session.after u)).1 =
            (exec (solveWith assumptions) (ops.foldl Session.after t)).1 ∧
          (exec (solveWith assumptions) (ops.foldl Session.after u)).2.core =
            (exec (solveWith assumptions) (ops.foldl Session.after t)).2.core := by
  have hcoherent := hs.coherent
  obtain ⟨grounded, counters, hground, hroom, rfl, rfl⟩ := hcoherent.exists_committed h
  have ht := keeps_unfoldInstance Backend.follows_any s hcoherent
  rw [h] at ht
  obtain ⟨again, hagain⟩ := hcoherent.exec_unfoldInstance_again counters ht hground hroom
  have hclauses : (s.committed grounded counters).clauses.toList = s.clauses.toList ++
      clausesOfAll (s.atoms.meetAll (mentionsOfAll grounded)) grounded :=
    clauses_withClauses _ _ _
  have hsize : (s.committed grounded counters).clauses.size =
      s.clauses.size + (signedOfAll grounded).length := by
    rw [← Array.length_toList, hclauses, List.length_append, clausesOfAll, List.length_map,
      Array.length_toList]
  refine ⟨_, hagain, by omega, ?_, rfl, fun ops assumptions => ?_⟩
  · rw [clauses_withClauses, hsize, Nat.add_sub_cancel, hclauses, ← Array.length_toList,
      List.drop_left]
  · have hnonZero : ∀ c ∈ clausesOfAll (s.atoms.meetAll (mentionsOfAll grounded)) grounded,
        ∀ l ∈ c, l ≠ 0 := fun c hc l hl =>
      (AtomTable.Sound.proper hroom (names_of_mem_clausesOfAll hcoherent.sound hroom hc hl)).1
    have halike := alike_withClauses hnonZero
      { s with atoms := s.atoms.meetAll (mentionsOfAll grounded) } counters again
    obtain ⟨hanswer, hcore⟩ :=
      (halike.run Solver.bisimulation ops).solveWith Solver.bisimulation assumptions
    exact ⟨hanswer.symm, hcore.symm⟩

/-- After eight clauses of two rules, the same eight come again. -/
theorem unfoldInstance_again_choice : ∃ t u,
    exec unfoldInstance (choice.after (.setOption (.groupRules false))) = (.ok 8, t) ∧
      exec unfoldInstance t = (.ok 8, u) ∧
      u.clauses.toList = t.clauses.toList ++ t.clauses.toList.drop (t.clauses.size - 8) ∧
      u.atoms = t.atoms ∧
      (exec (solveWith ["p a c", "-q d b"]) u).1 = (exec (solveWith ["p a c", "-q d b"]) t).1 ∧
      (exec (solveWith ["p a c", "-q d b"]) u).2.core =
        (exec (solveWith ["p a c", "-q d b"]) t).2.core := by
  have hrun : exec unfoldInstance (choice.after (.setOption (.groupRules false))) = (.ok 8, _) :=
    Prod.ext unfoldInstance_choice rfl
  obtain ⟨u, hagain, _, hclauses, hatoms, hdecides⟩ :=
    unfoldInstance_again (reached_choice.arises.after (.setOption (.groupRules false))) hrun
  exact ⟨_, u, hrun, hagain, hclauses, hatoms, hdecides [] ["p a c", "-q d b"]⟩

end Session

end Groundwork
