import Groundwork.Proofs.Session.Forwarding
import Groundwork.Proofs.Session.Numbering

/-!
# What a session records of its backend

A backend may refuse any clause and any decision, and a pass may fail at any point, so it
takes an argument that the clauses of a session are those that its backend has taken.

Nothing can be said about the clauses that a backend has taken without looking at the calls.
`Logged` does so: it passes every call on, and writes down the clauses that were taken since
the last reset.  As it answers like the backend within it, a session over it goes through the
states of the session over that backend, and what it wrote down is the clauses of both.
-/

namespace Groundwork

variable {β : Type}

/-! ## Backends that are listened to -/

/-- A backend, with the clauses that it has taken since it was last reset. -/
structure Logged (β : Type) where
  backend : β
  accepted : List Clause := []

namespace Logged

variable [Backend β]

instance : Backend (Logged β) where
  add b c :=
    match Backend.add b.backend c with
    | (.ok admission, backend) => (.ok admission, { backend, accepted := b.accepted ++ [c] })
    | (.error e, backend) => (.error e, { b with backend })
  solve b assumptions :=
    (Backend.solve b.backend assumptions).map id fun backend => { b with backend }
  model b := Backend.model b.backend
  core b := Backend.core b.backend
  reset b := { backend := Backend.reset b.backend }

theorem add_eq (b : Logged β) (c : Clause) :
    Backend.add b c =
      match Backend.add b.backend c with
      | (.ok admission, backend) => (.ok admission, ⟨backend, b.accepted ++ [c]⟩)
      | (.error e, backend) => (.error e, ⟨backend, b.accepted⟩) :=
  rfl

theorem forwards_backend : Backend.Forwards (backend : Logged β → β) where
  add b c := by
    rw [add_eq]
    cases Backend.add b.backend c with
    | mk answer backend => cases answer <;> rfl
  solve _ _ := rfl
  model _ := rfl
  reset _ := rfl

/-- What the backend holds are the clauses that it has taken. -/
def Holds (b : Logged β) (clauses : List Clause) : Prop :=
  b.accepted = clauses

theorem follows : Backend.Follows (Holds : Logged β → List Clause → Prop) where
  add_ok := by
    intro b b' clauses c admission hb _ hadd
    rw [add_eq] at hadd
    cases h : Backend.add b.backend c with
    | mk answer backend =>
      rw [h] at hadd
      cases answer with
      | ok _ =>
        cases hadd
        exact congrArg (· ++ [c]) hb
      | error _ => cases hadd
  add_error := by
    intro b b' clauses c e hb _ hadd
    rw [add_eq] at hadd
    cases h : Backend.add b.backend c with
    | mk answer backend =>
      rw [h] at hadd
      cases answer with
      | ok _ => cases hadd
      | error _ =>
        cases hadd
        exact hb
  solve hb _ := hb
  reset _ := rfl

end Logged

namespace Session

/-! ## Sessions and what their backends took -/

/-- The clauses of the session are those that its backend took, in order, all over ground atoms
of its table, and the table numbers the ground atoms without a gap. -/
structure Mirrors (s : Session β) (accepted : List Clause) : Prop where
  clauses_eq : s.clauses.toList = accepted
  named : ∀ c ∈ accepted, ∀ l ∈ c, l ≠ 0 ∧ ∃ text, s.atoms.text? (Literal.atom l) = some text
  atoms : s.atoms.Exact

theorem Coherent.mirrors {s : Session (Logged β)} (h : s.Coherent Logged.Holds)
    (hdense : s.atoms.Dense) : s.Mirrors s.backend.accepted := by
  have hclauses : s.backend.accepted = s.clauses.toList := h.holds
  refine ⟨hclauses.symm, fun c hc l hl => ?_, hdense.exact h.sound⟩
  rw [hclauses] at hc
  have hnames := h.named c hc l hl
  exact ⟨(AtomTable.Sound.proper h.largest_le hnames).1, Option.isSome_iff_exists.1 hnames⟩

/-- The session over a backend, before any operation. -/
def start (options : Options) (b : β) : Session β :=
  (ofOptions options).mapBackend fun _ => b

theorem coherent_start (options : Options) (b : β) :
    (start options { backend := b : Logged β }).Coherent Logged.Holds :=
  ⟨AtomTable.sound_empty, Nat.zero_le _, by simp [start, ofOptions, mapBackend], rfl⟩

/-- Whatever a backend answers, and whichever operations fail: after every run of operations the
clauses of the session are the clauses that the backend has taken since its last reset. -/
theorem run_mirrors [Backend β] (options : Options) (b : β) (ops : List Operation) :
    let logged := ops.foldl Session.after (start options { backend := b : Logged β })
    ops.foldl Session.after (start options b) = logged.mapBackend Logged.backend ∧
      (ops.foldl Session.after (start options b)).Mirrors logged.backend.accepted := by
  intro logged
  have hrun : ops.foldl Session.after (start options b) = logged.mapBackend Logged.backend :=
    run_mapBackend Logged.forwards_backend (start options { backend := b : Logged β }) ops
  obtain ⟨h, hdense⟩ :=
    (coherent_start options b).dense_run Logged.follows AtomTable.dense_empty ops
  have hmirrors := h.mirrors hdense
  refine ⟨hrun, ?_⟩
  rw [hrun]
  exact ⟨hmirrors.clauses_eq, hmirrors.named, hmirrors.atoms⟩

end Session

end Groundwork
