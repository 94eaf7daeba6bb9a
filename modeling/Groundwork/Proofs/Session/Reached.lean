import Groundwork.Proofs.Fallible
import Groundwork.Proofs.Session.Operations

/-!
# The sessions that are reached

A session over the solver of the library starts from options or from a document, and is
changed by operations.  `Reached.coherent` is the invariant of all these sessions: the
table of atoms is sound, every clause is over known ground atoms, and the solver holds
the clauses of the session.
-/

namespace Groundwork

/-! ## The solver as a backend -/

namespace Solver

/-- The solver holds clauses if it records a history that gave them. -/
def Holds (s : Solver) (clauses : List Clause) : Prop :=
  ∃ g, Records s g ∧ g.clauses = clauses

theorem follows : Backend.Follows Holds where
  add_ok := by
    intro s t _ c admission h hc hadd
    obtain ⟨g, hrecords, rfl⟩ := h
    have hkept := hrecords.add hc
    rw [show s.add c = _ from hadd] at hkept
    exact ⟨_, hkept, rfl⟩
  add_error := by
    intro s t _ c e h hc hadd
    obtain ⟨g, hrecords, rfl⟩ := h
    have heq := add_eq (s := s) fun l hl => (hc l hl).1
    rw [show s.add c = _ from hadd] at heq
    dsimp only at heq
    split at heq
    · cases heq
    · split at heq <;> cases heq
  solve := by
    intro s _ assumptions h hassumptions
    obtain ⟨g, hrecords, rfl⟩ := h
    exact ⟨_, hrecords.solve hassumptions, rfl⟩
  reset s := ⟨{}, records_nil s.minimise, rfl⟩

theorem accepts : Backend.Accepts Solver := by
  intro s c hc
  show ∃ admission t, s.add c = (.ok admission, t)
  rw [add_eq fun l hl => (hc l hl).1]
  dsimp only
  split
  · exact ⟨_, _, rfl⟩
  · split <;> exact ⟨_, _, rfl⟩

end Solver

/-! ## Documents -/

namespace AtomTable

/-- The table that a document records is sound, and its numbers are those of atoms. -/
theorem sound_ofDocument {d : Document} {t : AtomTable} (h : ofDocument d = .ok t) :
    t.Sound ∧ t.largest ≤ maxAtom := by
  obtain ⟨numbered, hliterals, hpredicates⟩ := Fallible.bind_eq_ok_iff.1 h
  have hnumbered : numbered.Sound ∧ numbered.largest ≤ maxAtom := by
    refine Fallible.foldlM_invariant (P := fun t : AtomTable => t.Sound ∧ t.largest ≤ maxAtom) ?_
      ⟨sound_empty, Nat.zero_le _⟩ hliterals
    intro t entry u h hstep
    obtain ⟨hsound, hle⟩ := h
    unfold installLiteral at hstep
    split at hstep
    · cases hstep
    · have hmax := (insertAt_eq_ok_iff.1 hstep).1.2.1
      exact ⟨hsound.insertAt hstep, by rw [largest_insertAt hstep]; omega⟩
  refine Fallible.foldlM_invariant (P := fun t : AtomTable => t.Sound ∧ t.largest ≤ maxAtom) ?_
    hnumbered hpredicates
  intro t entry u h hstep
  obtain ⟨hsound, hle⟩ := h
  unfold installPredicate at hstep
  split at hstep
  · cases hstep
  · next atom _ =>
    have hkept := hsound.setPredicate atom entry.2
    have hlargest := largest_setPredicate t atom entry.2
    split at hstep
    · next hset =>
      cases hstep
      rw [hset] at hkept hlargest
      exact ⟨hkept, by rwa [hlargest]⟩
    · cases hstep

end AtomTable

namespace Session

section Documents

variable {β : Type} [Backend β] {holds : β → List Clause → Prop}

/-- A clause of a document is only handed over if all its literals are known. -/
theorem keeps_installClause (hfollows : Backend.Follows holds) (c : Clause) :
    Keeps (Coherent holds) (installClause c : SessionM β Unit) := by
  refine Keeps.get_bind fun s hs => ?_
  dsimp only
  cases hfind : c.find? fun l => (s.atoms.text? (Literal.atom l)).isNone with
  | some _ => exact hs
  | none =>
    refine (keeps_handClause hfollows (fun l hl => ?_) s ⟨hs, rfl⟩).1
    have hknown := List.find?_eq_none.1 hfind l hl
    rwa [Option.isNone_iff_eq_none, ← ne_eq, ← Option.isSome_iff_ne_none] at hknown

theorem keeps_installClauses (hfollows : Backend.Follows holds) (clauses : List Clause)
    (values : List (String × String × String)) :
    Keeps (Coherent holds) (do
      clauses.forM installClause
      values.forM fun (domain, function, image) =>
        discard (setValue domain function image) : SessionM β Unit) :=
  Keeps.bind (Keeps.forM fun c _ => keeps_installClause hfollows c) fun _ =>
    Keeps.forM fun _ _ => Keeps.discard (keeps_setValue (ofInstance_coherent holds) _ _ _)

end Documents

theorem coherent_ofOptions (options : Options) : (ofOptions options).Coherent Solver.Holds :=
  ⟨AtomTable.sound_empty, Nat.zero_le _, by simp [ofOptions],
    ⟨{}, Solver.records_nil options.minimiseCore, rfl⟩⟩

theorem ofDocument_eq_ok_iff {d : Document} {options : Options} {s : Session Solver} :
    ofDocument d options = .ok s ↔
      exec (installDocument d) (ofOptions options) = (.ok (), s) := by
  show (exec (installDocument d) (ofOptions options)).1.map
    (fun _ => (exec (installDocument d) (ofOptions options)).2) = .ok s ↔ _
  cases exec (installDocument d) (ofOptions options) with
  | mk answer t =>
    cases answer with
    | ok u =>
      constructor
      · intro h
        cases h
        rfl
      · intro h
        cases h
        rfl
    | error e => exact iff_of_false (fun h => by cases h) fun h => by cases h

theorem coherent_ofDocument {d : Document} {options : Options} {s : Session Solver}
    (h : ofDocument d options = .ok s) : s.Coherent Solver.Holds := by
  have hstart := coherent_ofOptions options
  have hrun := ofDocument_eq_ok_iff.1 h
  unfold installDocument at hrun
  cases hatoms : AtomTable.ofDocument d with
  | error e =>
    rw [hatoms, exec_bind, exec_orFail_error] at hrun
    cases hrun
  | ok atoms =>
    obtain ⟨hsound, hle⟩ := AtomTable.sound_ofDocument hatoms
    have hinstalled : Coherent Solver.Holds { ofOptions options with atoms } :=
      ⟨hsound, hle, by simp [ofOptions], hstart.holds⟩
    have hkept := keeps_installClauses Solver.follows d.clauses d.values _ hinstalled
    rw [hatoms, exec_bind, exec_orFail_ok] at hrun
    dsimp only at hrun
    rw [exec_bind, exec_modify] at hrun
    dsimp only at hrun
    rwa [hrun] at hkept

/-- The sessions that the operations of the library lead to. -/
inductive Reached : Session Solver → Prop where
  | ofOptions (options : Options) : Reached (ofOptions options)
  | ofDocument {d : Document} {options : Options} {s : Session Solver}
      (h : ofDocument d options = .ok s) : Reached s
  | after {s : Session Solver} (h : Reached s) (op : Operation) : Reached (s.after op)

theorem Reached.run {s : Session Solver} (h : Reached s) (ops : List Operation) :
    Reached (ops.foldl Session.after s) := by
  induction ops generalizing s with
  | nil => exact h
  | cons op ops ih => exact ih (h.after op)

theorem Reached.coherent {s : Session Solver} (h : Reached s) : s.Coherent Solver.Holds := by
  induction h with
  | ofOptions options => exact coherent_ofOptions options
  | ofDocument h => exact coherent_ofDocument h
  | after _ op ih => exact ih.after Solver.follows op

end Session

end Groundwork
