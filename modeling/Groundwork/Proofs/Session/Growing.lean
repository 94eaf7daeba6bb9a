import Groundwork.Proofs.Session.Strategies

/-!
# How a session grows

Besides a decision and a reset, an operation leaves the ground atoms and the clauses of a
session as they are, or adds to them.  `Grows` says what it adds, as clauses over signed
ground atoms, and that the session is not taken for decided any more if there are any.

* `Coherent.adds_commit`, `Coherent.adds_assertAtom`: an operation that succeeds adds all of
  its clauses, and one that fails adds none;
* `Coherent.grows_after`: the step of all runs in which nothing is decided or reset;
* `Grows.models_iff`: what is added says what its clauses say;
* `Coherent.models_of_run`: so nothing that a session says is lost while it is not reset.
-/

namespace Groundwork

/-- The operation puts something into the session: it is no decision and no reset. -/
def Operation.IsInput : Operation → Prop
  | .solveWith _ | .reset => False
  | _ => True

theorem Operation.isInput_or (op : Operation) :
    op.IsInput ∨ (∃ assumptions, op = .solveWith assumptions) ∨ op = .reset := by
  cases op with
  | solveWith assumptions => exact Or.inr (Or.inl ⟨assumptions, rfl⟩)
  | reset => exact Or.inr (Or.inr rfl)
  | _ => exact Or.inl trivial

namespace Session

variable {β : Type}

/-- The second session has the ground atoms and the clauses of the first, and further
clauses.  Without any, it is decided as the first is. -/
structure Grows (s t : Session β) (new : List (List (String × Bool))) : Prop where
  text?_eq : ∀ atom text, s.atoms.text? atom = some text → t.atoms.text? atom = some text
  known : ∀ c ∈ new, ∀ signed ∈ c, (t.atoms.get? signed.1).isSome
  clauses_eq : t.clauses.toList = s.clauses.toList ++ new.map fun c => c.map t.atoms.literalOf
  stage_eq : t.stage = .input ∨ new = [] ∧ t.stage = s.stage ∧ t.backend = s.backend

theorem SameInstance.grows {s t : Session β} (h : SameInstance s t) : s.Grows t [] := by
  refine ⟨fun atom text htext => ?_, by simp, by simp [h.clauses_eq], ?_⟩
  · rwa [h.atoms_eq]
  · rcases h.stage_eq with hsame | hinput
    · exact Or.inr ⟨rfl, hsame, h.backend_eq⟩
    · exact Or.inl hinput

theorem SameInstance.trans_grows {s t u : Session β} (hst : SameInstance s t)
    {new : List (List (String × Bool))} (htu : t.Grows u new) : s.Grows u new := by
  refine ⟨fun atom text htext => htu.text?_eq atom text ?_, htu.known, ?_, ?_⟩
  · rwa [hst.atoms_eq]
  · rw [htu.clauses_eq, hst.clauses_eq]
  · rcases htu.stage_eq with hinput | ⟨hnil, hstage, hbackend⟩
    · exact Or.inl hinput
    · rw [hstage, hbackend, hst.backend_eq]
      exact hst.stage_eq.symm.imp id fun hsame => ⟨hnil, hsame, rfl⟩

/-- What is added says what its clauses say. -/
theorem Grows.models_iff {holds : β → List Clause → Prop} {s t : Session β}
    {new : List (List (String × Bool))} (h : s.Grows t new) (hs : s.Coherent holds)
    (ht : t.Coherent holds) (v : String → Bool) :
    t.Models v ↔ s.Models v ∧ ∀ c ∈ new, SignedHolds v c :=
  models_of_append hs ht.sound ht.largest_le h.text?_eq h.known h.clauses_eq v

/-! ## Outcomes -/

/-- The outcome has the new clauses if it is a success, and none otherwise. -/
def Adds {α : Type} (s : Session β) (new : List (List (String × Bool)))
    (outcome : Except Failure α × Session β) : Prop :=
  match outcome with
  | (.ok _, t) => s.Grows t new
  | (.error _, t) => s.Grows t []

theorem Adds.exists_grows {α : Type} {s : Session β} {new : List (List (String × Bool))}
    {outcome : Except Failure α × Session β} (h : s.Adds new outcome) :
    ∃ added, (added = [] ∨ added = new) ∧ s.Grows outcome.2 added := by
  obtain ⟨answer, t⟩ := outcome
  cases answer with
  | ok a => exact ⟨new, Or.inr rfl, h⟩
  | error e => exact ⟨[], Or.inl rfl, h⟩

section Passes

variable [Backend β] {holds : β → List Clause → Prop} {s : Session β}

theorem Coherent.adds_commit (haccepts : Backend.Accepts β) (hfollows : Backend.Follows holds)
    (h : s.Coherent holds) (grounded : List Grounded) :
    s.Adds (signedOfAll grounded) (exec (Session.commit grounded) s) := by
  by_cases hroom : (s.atoms.meetAll (mentionsOfAll grounded)).largest ≤ maxAtom
  · obtain ⟨t, hcommit, hatoms, hclauses, hstage⟩ := h.exec_commit haccepts hfollows hroom
    rw [hcommit]
    refine ⟨fun atom text htext => ?_, fun c hc signed hsigned => ?_, hclauses, hstage⟩
    · rw [hatoms]
      exact h.sound.text?_meetAll htext _
    · rw [hatoms]
      exact known_of_mem_signedOfAll hc hsigned s.atoms
  · obtain ⟨met, counters, _, hcommit, _⟩ := h.exec_commit_error hroom
    rw [hcommit]
    refine ⟨fun atom text htext => h.sound.text?_rollback htext met, by simp, ?_, ?_⟩
    · exact (List.append_nil _).symm
    · exact Or.inr ⟨rfl, rfl, rfl⟩

theorem Coherent.adds_unfoldGrounded (haccepts : Backend.Accepts β)
    (hfollows : Backend.Follows holds) (h : s.Coherent holds)
    (answer : Except GroundError (List Grounded)) :
    s.Adds (signedOfAll (answer.toOption.getD [])) (exec (unfoldGrounded answer) s) := by
  cases answer with
  | error e => exact (SameInstance.refl s).grows
  | ok grounded =>
    have hcounted : SameInstance s (s.unfolded grounded.length) :=
      ⟨rfl, rfl, rfl, Or.inl rfl⟩
    have hadds := (h.unfolded grounded.length).adds_commit haccepts hfollows grounded
    show s.Adds _ (exec (Session.commit grounded) (s.unfolded grounded.length))
    cases hcommit : exec (Session.commit grounded) (s.unfolded grounded.length) with
    | mk answer t =>
      rw [hcommit] at hadds
      cases answer with
      | ok n => exact hcounted.trans_grows hadds
      | error e => exact hcounted.trans_grows hadds

theorem Coherent.adds_assertAtom (haccepts : Backend.Accepts β) (h : s.Coherent holds)
    (text : String) (polarity : Bool) :
    s.Adds [[(text, polarity)]] (exec (assertAtom text polarity) s) := by
  rcases h.exec_assertAtom text polarity with
    ⟨t, l, rfl, rfl, ht, hknown, hnames, hexec⟩ | hexec
  · obtain ⟨admission, backend, hadd⟩ := haccepts s.backend _ fun l hl =>
      List.mem_singleton.1 hl ▸ AtomTable.Sound.proper ht.largest_le hnames
    rw [hexec, exec_handClause_ok (s := { s with atoms := s.atoms.meetAll [⟨text, []⟩] }) hadd]
    refine ⟨fun atom other htext => h.sound.text?_meetAll htext _, fun c hc signed hsigned => ?_,
      ?_, Or.inl rfl⟩
    · rw [List.mem_singleton.1 hc] at hsigned
      rw [List.mem_singleton.1 hsigned]
      exact hknown
    · exact Array.toList_push
  · rw [hexec]
    exact (SameInstance.refl s).grows

end Passes

/-! ## All operations -/

/-- The clauses that an operation adds if it succeeds. -/
def additions (s : Session β) : Operation → List (List (String × Bool))
  | .assertAtom text polarity => [[(text, polarity)]]
  | op => signedOfAll ((s.pass op).toOption.getD [])

/-- An operation that puts something in adds its clauses or nothing. -/
theorem Coherent.grows_after [Backend β] {holds : β → List Clause → Prop} {s : Session β}
    (haccepts : Backend.Accepts β) (hfollows : Backend.Follows holds) (h : s.Coherent holds)
    {op : Operation} (hop : op.IsInput) :
    ∃ added, (added = [] ∨ added = s.additions op) ∧ s.Grows (s.after op) added := by
  cases op with
  | unfoldRule rule =>
    have hadds := h.adds_unfoldGrounded haccepts hfollows (s.pass (.unfoldRule rule))
    rw [show s.pass (.unfoldRule rule) = s.pass (.unfoldRestricted rule []) from rfl,
      ← exec_unfoldRestricted] at hadds
    exact hadds.exists_grows
  | unfoldRestricted rule restrictions =>
    have hadds := h.adds_unfoldGrounded haccepts hfollows
      (s.pass (.unfoldRestricted rule restrictions))
    rw [← exec_unfoldRestricted] at hadds
    exact hadds.exists_grows
  | unfoldInstance =>
    have hadds := h.adds_unfoldGrounded haccepts hfollows (s.pass .unfoldInstance)
    rw [← exec_unfoldInstance] at hadds
    exact hadds.exists_grows
  | assumeUniqueNames =>
    have hadds := h.adds_commit haccepts hfollows [uniqueNames s.sorts]
    rw [← exec_assumeUniqueNames] at hadds
    exact hadds.exists_grows
  | addGroundClause kind clause =>
    exact (h.adds_commit haccepts hfollows [{ kind, clauses := #[clause] }]).exists_grows
  | assertAtom text polarity => exact (h.adds_assertAtom haccepts text polarity).exists_grows
  | solveWith assumptions => exact hop.elim
  | reset => exact hop.elim
  | _ =>
    refine ⟨[], Or.inl rfl, SameInstance.grows ?_⟩
    exact s.sameInstance_after trivial

/-- A decision changes neither the ground atoms nor the clauses. -/
theorem after_solveWith [Backend β] (s : Session β) (assumptions : List String) :
    (s.after (.solveWith assumptions)).atoms = s.atoms ∧
      (s.after (.solveWith assumptions)).clauses = s.clauses := by
  show (exec (solveWith assumptions) s).2.atoms = _ ∧ (exec (solveWith assumptions) s).2.clauses = _
  cases hread : assumptions.mapM (assumptionLiteral s.atoms) with
  | error e =>
    rw [exec_solveWith_error hread]
    exact ⟨rfl, rfl⟩
  | ok literals =>
    rw [exec_solveWith_ok hread]
    split <;> exact ⟨rfl, rfl⟩

section Models

variable [Backend β] {holds : β → List Clause → Prop} {s : Session β} {v : String → Bool}

/-- Unless it is reset, a session keeps what it says. -/
theorem Coherent.models_of_after (haccepts : Backend.Accepts β) (hfollows : Backend.Follows holds)
    (h : s.Coherent holds) {op : Operation} (hop : op ≠ .reset) (hv : (s.after op).Models v) :
    s.Models v := by
  rcases op.isInput_or with hinput | ⟨assumptions, rfl⟩ | hreset
  · obtain ⟨added, _, hgrows⟩ := h.grows_after haccepts hfollows hinput
    exact ((hgrows.models_iff h (h.after hfollows op) v).1 hv).1
  · obtain ⟨hatoms, hclauses⟩ := s.after_solveWith assumptions
    rwa [Models, hatoms, hclauses] at hv
  · exact absurd hreset hop

/-- The induction is on the operations, from the first on. -/
theorem Coherent.models_of_run (haccepts : Backend.Accepts β) (hfollows : Backend.Follows holds)
    (h : s.Coherent holds) {ops : List Operation} (hops : .reset ∉ ops)
    (hv : (ops.foldl Session.after s).Models v) : s.Models v := by
  induction ops generalizing s with
  | nil => exact hv
  | cons op ops ih =>
    obtain ⟨hop, hrest⟩ := List.ne_and_not_mem_of_not_mem_cons hops
    have hnext := ih (h.after hfollows op) hrest hv
    exact h.models_of_after haccepts hfollows (Ne.symm hop) hnext

end Models

end Session

end Groundwork
