import Groundwork.Proofs.Session.Forwarding

/-!
# Sessions that go on alike

What a session does next depends neither on the clauses that it lists nor on what it has counted:
clauses are only listed for its document.  It depends on its backend, but only as far as calls can
tell.  So sessions that differ in nothing else answer every operation alike, and the differences
do not grow.

* `Backend.Bisimulation`: a relation of backends that calls cannot tell apart;
* `Alike.after`, `Alike.run`: the step and the run;
* `Alike.solveWith`: all decisions come out alike.

Operations on sorts, values, rules and options are carried over as they are (`after_overlay`).  The
others ask the backend, and `Relates` follows them through both sessions at once.
-/

namespace Groundwork

variable {β γ : Type}

/-- Calls on related backends are answered alike, and lead to related backends. -/
structure Backend.Bisimulation [Backend β] [Backend γ] (R : β → γ → Prop) : Prop where
  add : ∀ {b b'}, R b b' → ∀ c, (Backend.add b c).1 = (Backend.add b' c).1 ∧
    R (Backend.add b c).2 (Backend.add b' c).2
  solve : ∀ {b b'}, R b b' → ∀ assumptions,
    (Backend.solve b assumptions).1 = (Backend.solve b' assumptions).1 ∧
      R (Backend.solve b assumptions).2 (Backend.solve b' assumptions).2
  model : ∀ {b b'}, R b b' → Backend.model b = Backend.model b'
  core : ∀ {b b'}, R b b' → Backend.core b = Backend.core b'
  reset : ∀ {b b'}, R b b' → R (Backend.reset b) (Backend.reset b')

namespace Session

variable {R : β → γ → Prop} {s : Session β} {t : Session γ}

/-- The session over another backend, with other clauses and counters. -/
def refit (s : Session β) (backend : γ) (clauses : Array Clause) (counters : Counters) :
    Session γ :=
  { s with backend, clauses, counters }

/-- The sessions differ in their clauses and counters at most, and have related backends. -/
def Alike (R : β → γ → Prop) (s : Session β) (t : Session γ) : Prop :=
  ∃ backend clauses counters, R s.backend backend ∧ t = s.refit backend clauses counters

/-! ## Steps -/

theorem relates_orFail {ε α : Type} (cause : ε → Failure) (answer : Except ε α) :
    Relates (Alike R) (orFail cause answer) (orFail cause answer) := by
  cases answer with
  | ok a => exact Relates.pure a
  | error e => exact Relates.throw _

theorem relates_onAtoms {α : Type} (m : AtomM α) :
    Relates (Alike R) (onAtoms m) (onAtoms m) := by
  refine (Relates.modifyGet fun s t h => ?_).bind fun answer => relates_orFail _ answer
  obtain ⟨backend, clauses, counters, h, rfl⟩ := h
  exact ⟨rfl, backend, clauses, counters, h, rfl⟩

theorem relates_encode (largest : Nat) (found : Array Clause) (grounded : Grounded) :
    Relates (Alike R) (encode largest found grounded) (encode largest found grounded) := by
  intro s t h
  obtain ⟨backend, clauses, counters, h, rfl⟩ := h
  rw [exec_encode, exec_encode, show (s.refit backend clauses counters).atoms = s.atoms from rfl]
  cases exec (AtomTable.encodeGrounded grounded) s.atoms with
  | mk answer atoms => cases answer <;> exact ⟨rfl, backend, clauses, _, h, rfl⟩

variable [Backend β] [Backend γ] (hR : Backend.Bisimulation R)

include hR

theorem relates_handClause (c : Clause) :
    Relates (Alike R) (handClause c) (handClause c) := by
  refine (Relates.modifyGet fun s t h => ?_).bind fun answer => ?_
  · obtain ⟨backend, clauses, counters, h, rfl⟩ := h
    obtain ⟨hanswer, h⟩ := hR.add h c
    exact ⟨hanswer, _, clauses, counters, h, rfl⟩
  · refine (relates_orFail _ answer).bind fun admission => ?_
    refine (Relates.modify fun s t h => ?_).bind fun _ => Relates.modify fun s t h => ?_
    · obtain ⟨backend, clauses, counters, h, rfl⟩ := h
      exact ⟨backend, _, _, h, rfl⟩
    · obtain ⟨backend, clauses, counters, h, rfl⟩ := h
      exact ⟨backend, clauses, counters, h, rfl⟩

theorem relates_commit (grounded : List Grounded) :
    Relates (Alike R) (commit grounded) (commit grounded) := by
  refine Relates.get_bind fun s t h => ?_
  have hfold := Relates.foldlM (relates_encode (R := R) s.atoms.largest) grounded #[]
  have hrest := hfold.bind fun found =>
    (Relates.forM (relates_handClause hR) found.toList).bind fun _ => Relates.pure found.size
  have hlargest : t.atoms.largest = s.atoms.largest := by
    obtain ⟨_, _, _, _, rfl⟩ := h
    rfl
  rw [hlargest]
  exact hrest s t h

theorem relates_unfoldGrounded (answer : Except GroundError (List Grounded)) :
    Relates (Alike R) (unfoldGrounded answer) (unfoldGrounded answer) := by
  refine (relates_orFail _ answer).bind fun grounded => ?_
  refine (Relates.modify fun s t h => ?_).bind fun _ => relates_commit hR grounded
  obtain ⟨backend, clauses, counters, h, rfl⟩ := h
  exact ⟨backend, clauses, _, h, rfl⟩

theorem relates_assertAtom (text : String) (polarity : Bool) :
    Relates (Alike R) (assertAtom text polarity) (assertAtom text polarity) :=
  (relates_onAtoms _).bind fun l => relates_handClause hR [l]

theorem relates_reset : Relates (Alike R) reset reset := by
  refine Relates.modify fun s t h => ?_
  obtain ⟨backend, clauses, counters, h, rfl⟩ := h
  exact ⟨_, _, _, hR.reset h, rfl⟩

theorem relates_solveWith (assumptions : List String) :
    Relates (Alike R) (solveWith assumptions) (solveWith assumptions) := by
  intro s t h
  obtain ⟨backend, clauses, counters, h, rfl⟩ := h
  cases hread : assumptions.mapM (assumptionLiteral s.atoms) with
  | error e =>
    rw [exec_solveWith_error hread,
      exec_solveWith_error (s := s.refit backend clauses counters) hread]
    exact ⟨rfl, backend, clauses, counters, h, rfl⟩
  | ok literals =>
    rw [exec_solveWith_ok hread, exec_solveWith_ok (s := s.refit backend clauses counters) hread]
    obtain ⟨hanswer, h⟩ := hR.solve h literals
    cases hs : Backend.solve s.backend literals with
    | mk answer b =>
      cases ht : Backend.solve backend literals with
      | mk answer' b' =>
        rw [hs, ht] at hanswer h
        have hanswer : answer = answer' := hanswer
        subst hanswer
        rw [show Backend.solve (s.refit backend clauses counters).backend literals = _ from ht]
        cases answer with
        | error e => exact ⟨rfl, b', _, _, h, rfl⟩
        | ok verdict =>
          cases verdict with
          | satisfiable =>
            refine ⟨?_, b', _, _, h, rfl⟩
            dsimp only
            rw [hR.model h]
          | unsatisfiable => exact ⟨rfl, b', _, _, h, rfl⟩
          | unknown => exact ⟨rfl, b', _, _, h, rfl⟩

/-! ## Operations -/

omit hR [Backend β] [Backend γ] in
/-- Alike sessions ground the same. -/
theorem Alike.pass_eq (h : Alike R s t) (op : Operation) : t.pass op = s.pass op := by
  obtain ⟨backend, clauses, counters, _, rfl⟩ := h
  have hrestrict := restrict_congr (s := s) (t := s.refit backend clauses counters) rfl
  cases op with
  | unfoldRule rule =>
    rw [pass, pass, hrestrict]
    rfl
  | unfoldRestricted rule restrictions =>
    rw [pass, pass, hrestrict]
    rfl
  | _ => rfl

omit hR in
/-- What leaves the instance alone does not look at it either. -/
theorem Alike.after_of_leavesInstance (h : Alike R s t) {op : Operation}
    (hop : op.LeavesInstance) : Alike R (s.after op) (t.after op) := by
  obtain ⟨backend, clauses, counters, h, rfl⟩ := h
  refine ⟨backend, clauses, counters, ?_, after_overlay (f := fun _ => backend)
    (k := fun _ => clauses) (n := fun _ => counters) (h := id) rfl s hop⟩
  rwa [(s.sameInstance_after hop).backend_eq]

theorem Alike.after (h : Alike R s t) (op : Operation) : Alike R (s.after op) (t.after op) := by
  have hpass : ∀ op : Operation, Alike R (exec (unfoldGrounded (s.pass op)) s).2
      (exec (unfoldGrounded (t.pass op)) t).2 := by
    intro op
    rw [h.pass_eq]
    exact (relates_unfoldGrounded hR _ s t h).2
  cases op with
  | unfoldRule rule =>
    have hrule := hpass (.unfoldRestricted rule [])
    rw [← exec_unfoldRestricted, ← exec_unfoldRestricted] at hrule
    exact hrule
  | unfoldRestricted rule restrictions =>
    have hrule := hpass (.unfoldRestricted rule restrictions)
    rw [← exec_unfoldRestricted, ← exec_unfoldRestricted] at hrule
    exact hrule
  | unfoldInstance =>
    have hrules := hpass .unfoldInstance
    rw [← exec_unfoldInstance, ← exec_unfoldInstance] at hrules
    exact hrules
  | assumeUniqueNames =>
    have hsorts : t.sorts = s.sorts := by
      obtain ⟨_, _, _, _, rfl⟩ := h
      rfl
    show Alike R (exec Session.assumeUniqueNames s).2 (exec Session.assumeUniqueNames t).2
    rw [exec_assumeUniqueNames, exec_assumeUniqueNames, hsorts]
    exact (relates_commit hR _ s t h).2
  | addGroundClause kind clause => exact (relates_commit hR _ s t h).2
  | assertAtom text polarity => exact (relates_assertAtom hR text polarity s t h).2
  | solveWith assumptions => exact (relates_solveWith hR assumptions s t h).2
  | reset => exact (relates_reset hR s t h).2
  | _ => exact h.after_of_leavesInstance trivial

/-- The induction is on the operations, from the first on. -/
theorem Alike.run (h : Alike R s t) (ops : List Operation) :
    Alike R (ops.foldl Session.after s) (ops.foldl Session.after t) := by
  induction ops generalizing s t with
  | nil => exact h
  | cons op ops ih => exact ih (h.after hR op)

theorem Alike.core_eq (h : Alike R s t) : s.core = t.core := by
  obtain ⟨backend, clauses, counters, h, rfl⟩ := h
  unfold core
  rw [show Backend.core (s.refit backend clauses counters).backend = Backend.core s.backend from
    (hR.core h).symm]
  rfl

/-- A decision has the same outcome, and reports the same core. -/
theorem Alike.solveWith (h : Alike R s t) (assumptions : List String) :
    (exec (solveWith assumptions) s).1 = (exec (solveWith assumptions) t).1 ∧
      (exec (solveWith assumptions) s).2.core = (exec (solveWith assumptions) t).2.core :=
  (relates_solveWith hR assumptions s t h).imp id fun h => h.core_eq hR

end Session

end Groundwork
