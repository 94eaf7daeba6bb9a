import Groundwork.Proofs.Session.Operations

/-!
# Sessions over other backends and at other stages

A session does nothing with its backend but call it.  So if calls on a backend can be
forwarded to another one, a session over the first goes through the same states as one over
the second, but for the backend itself.  The stage is only ever set, so it makes no difference to
what the operations do either.

Every operation is put together from the steps of `SessionM`, and `Maps` follows them for both
changes at once (`recast`).  Passes are followed for any change that they neither look at nor undo
(`OutsidePasses`).  Operations on sorts, values, rules and options do not look at clauses
and counters either (`after_overlay`).  `after_recast` is the step of a run, and `run_recast`
follows by induction on the operations.  `run_mapBackend` and `run_noteInput` are its two cases.
-/

namespace Groundwork

variable {β γ : Type}

/-- A call on a backend is answered as the same call on its image, and changes both alike. -/
structure Backend.Forwards [Backend β] [Backend γ] (f : β → γ) : Prop where
  add : ∀ b c, Backend.add (f b) c = (Backend.add b c).map id f
  solve : ∀ b assumptions, Backend.solve (f b) assumptions = (Backend.solve b assumptions).map id f
  model : ∀ b, Backend.model (f b) = Backend.model b
  reset : ∀ b, Backend.reset (f b) = f (Backend.reset b)

namespace Session

/-- The session over another backend and at another stage. -/
def recast (f : β → γ) (h : Stage → Stage) (s : Session β) : Session γ :=
  { s with
    backend := f s.backend
    stage := h s.stage }

/-- The session over another backend and at another stage, with other clauses and counters.  Where
these two stay, it is the session that is recast. -/
def overlay (f : β → γ) (k : Array Clause → Array Clause) (n : Counters → Counters)
    (h : Stage → Stage) (s : Session β) : Session γ :=
  { s with
    backend := f s.backend
    clauses := k s.clauses
    counters := n s.counters
    stage := h s.stage }

theorem backend_recast (f : β → γ) (h : Stage → Stage) (s : Session β) :
    (s.recast f h).backend = f s.backend :=
  rfl

/-! ## Sorts, values, rules and options -/

section Tables

variable {f : β → γ} {k : Array Clause → Array Clause} {n : Counters → Counters}
  {h : Stage → Stage}

theorem maps_orFail {ε α : Type} {g : Session β → Session γ} (cause : ε → Failure)
    (answer : Except ε α) : Maps g (orFail cause answer) (orFail cause answer) := by
  cases answer with
  | ok a => exact Maps.pure a
  | error e => exact Maps.throw _

theorem maps_checkSortLimit (sort : String) (count : Nat) :
    Maps (overlay f k n h) (checkSortLimit sort count) (checkSortLimit sort count) :=
  Maps.get_bind fun s => Maps.ite (Maps.throw _) (Maps.pure _) s

theorem maps_onSorts {α : Type} (change : SortTable → Except SortError α × SortTable) :
    Maps (overlay f k n h) (onSorts change) (onSorts change) :=
  Maps.bind (Maps.modifyGet fun _ => rfl) fun _ => maps_orFail _ _

theorem maps_setOption (setting : Setting) :
    Maps (overlay f k n h) (setOption setting) (setOption setting) := by
  refine Maps.get_bind fun s => ?_
  rw [show (s.overlay f k n h).options = s.options from rfl]
  cases s.options.set? setting <;> rfl

theorem maps_setCancelled (cancelled : Bool) :
    Maps (overlay f k n h) (setCancelled cancelled) (setCancelled cancelled) :=
  Maps.modify fun _ => rfl

theorem maps_setHost (host : Host) :
    Maps (overlay f k n h) (setHost host) (setHost host) :=
  Maps.modify fun _ => rfl

/-! ### What is put in -/

variable (hh : h .input = .input)

include hh

theorem maps_noteInput : Maps (overlay f k n h) noteInput noteInput := by
  refine Maps.modify fun s => ?_
  unfold overlay
  rw [hh]

theorem maps_fillSort (sort : String) (count : Nat) :
    Maps (overlay f k n h) (fillSort sort count) (fillSort sort count) :=
  Maps.bind (maps_checkSortLimit sort count) fun _ =>
    Maps.bind (maps_noteInput hh) fun _ => maps_onSorts _

theorem maps_addElement (sort constant : String) :
    Maps (overlay f k n h) (addElement sort constant) (addElement sort constant) :=
  Maps.bind (maps_checkSortLimit sort 1) fun _ =>
    Maps.bind (maps_noteInput hh) fun _ => maps_onSorts _

theorem maps_addSignature (signature : Signature) :
    Maps (overlay f k n h) (addSignature signature) (addSignature signature) :=
  Maps.bind (Maps.modify fun _ => rfl) fun _ => maps_noteInput hh

theorem maps_setValue (domain function image : String) :
    Maps (overlay f k n h) (setValue domain function image) (setValue domain function image) := by
  unfold setValue
  split
  · exact Maps.throw _
  · exact Maps.bind (maps_noteInput hh) fun _ => Maps.modifyGet fun _ => rfl

theorem maps_installTree (sort : String) (tree : Tree) (sink : Option String) :
    Maps (overlay f k n h) (installTree sort tree sink) (installTree sort tree sink) := by
  unfold installTree
  refine Maps.bind (Maps.forM (maps_addElement hh sort) _) fun _ => ?_
  refine Maps.bind (Maps.forM (fun _ => Maps.discard (maps_setValue hh _ _ _)) _) fun _ => ?_
  cases sink with
  | none => exact Maps.pure _
  | some sink =>
    exact Maps.bind (maps_addElement hh sort sink) fun _ =>
      Maps.forM (fun _ => Maps.forM (fun _ => Maps.discard (maps_setValue hh _ _ _)) _) _

theorem maps_addRule (rule : Rule) : Maps (overlay f k n h) (addRule rule) (addRule rule) :=
  Maps.bind (maps_noteInput hh) fun _ => Maps.modify fun _ => rfl

theorem maps_applyDeclaration (d : Declaration) :
    Maps (overlay f k n h) (applyDeclaration d) (applyDeclaration d) := by
  cases d with
  | cardinality sort count => exact Maps.discard (maps_fillSort hh sort count)
  | extension sort elements => exact Maps.forM (maps_addElement hh sort) elements
  | typing signature => exact maps_addSignature hh signature
  | vars names sort => exact Maps.pure ()

theorem maps_tryDeclaration (noted : Array Diagnostic) (d : Declaration) :
    Maps (overlay f k n h) (tryDeclaration noted d) (tryDeclaration noted d) := by
  intro s
  rw [exec_tryDeclaration, exec_tryDeclaration, maps_applyDeclaration hh d s]
  cases exec (applyDeclaration d) s with
  | mk answer t => cases answer <;> rfl

theorem maps_applyProgram (program : Program) :
    Maps (overlay f k n h) (applyProgram program) (applyProgram program) :=
  Maps.bind (Maps.foldlM (maps_tryDeclaration hh) _ _) fun _ =>
    Maps.bind (Maps.forM (maps_addRule hh) _) fun _ => Maps.pure _

theorem afterProgram_overlay (s : Session β) (text : String) :
    (s.overlay f k n h).afterProgram text = (s.afterProgram text).overlay f k n h := by
  unfold afterProgram readProgram
  rw [show (s.overlay f k n h).typings = s.typings from rfl]
  cases Program.parse s.typings text with
  | error _ => rfl
  | ok parsed =>
    exact congrArg Prod.snd (maps_applyProgram hh parsed.1 { s with typings := parsed.2 })

/-- Operations on sorts, values, rules and options look at nothing else. -/
theorem after_overlay [Backend β] [Backend γ] (s : Session β) {op : Operation}
    (hop : op.LeavesInstance) :
    (s.overlay f k n h).after op = (s.after op).overlay f k n h := by
  cases op with
  | readProgram text => exact afterProgram_overlay hh s text
  | fillSort sort count => exact (maps_fillSort hh sort count).state_eq s
  | addElement sort constant => exact (maps_addElement hh sort constant).state_eq s
  | addSignature signature => exact (maps_addSignature hh signature).state_eq s
  | setValue domain function image =>
    exact (maps_setValue hh domain function image).state_eq s
  | installTree sort tree sink => exact (maps_installTree hh sort tree sink).state_eq s
  | addRule rule => exact (maps_addRule hh rule).state_eq s
  | setOption setting => exact (maps_setOption setting).state_eq s
  | setCancelled cancelled => exact (maps_setCancelled cancelled).state_eq s
  | setHost host => exact (maps_setHost host).state_eq s
  | _ => exact hop.elim

end Tables

/-! ## Changes outside passes -/

/-- A change of sessions that makes no difference to passes once the rules are grounded: it leaves
the atoms alone, and goes with what passes note and hand over. -/
structure OutsidePasses [Backend β] [Backend γ] (g : Session β → Session γ) : Prop where
  atoms : ∀ s, (g s).atoms = s.atoms
  encoded : ∀ s atoms bindings,
    (g s).encoded atoms ((g s).counted bindings) = g (s.encoded atoms (s.counted bindings))
  rulesUnfolded : ∀ s (count : Nat),
    { g s with
      counters :=
        { (g s).counters with rulesUnfolded := (g s).counters.rulesUnfolded + count } } =
      g { s with
          counters := { s.counters with rulesUnfolded := s.counters.rulesUnfolded + count } }
  handClause : ∀ c, Maps g (handClause c) (handClause c)

namespace OutsidePasses

variable [Backend β] [Backend γ] {g : Session β → Session γ} (hg : OutsidePasses g)

include hg

theorem encode (largest : Nat) (clauses : Array Clause) (grounded : Grounded) :
    Maps g (Session.encode largest clauses grounded) (Session.encode largest clauses grounded) := by
  intro s
  rw [exec_encode, exec_encode, hg.atoms]
  cases exec (AtomTable.encodeGrounded grounded) s.atoms with
  | mk answer atoms => cases answer <;> exact congrArg (Prod.mk _) (hg.encoded s _ _)

theorem commit (grounded : List Grounded) :
    Maps g (Session.commit grounded) (Session.commit grounded) := by
  refine Maps.get_bind fun s => ?_
  rw [hg.atoms]
  exact Maps.bind (Maps.foldlM (hg.encode s.atoms.largest) grounded #[])
    (fun _ => Maps.bind (Maps.forM hg.handClause _) fun _ => Maps.pure _) s

theorem unfoldGrounded (answer : Except GroundError (List Grounded)) :
    Maps g (Session.unfoldGrounded answer) (Session.unfoldGrounded answer) :=
  Maps.bind (maps_orFail _ _) fun grounded =>
    Maps.bind (Maps.modify fun s => hg.rulesUnfolded s grounded.length) fun _ => hg.commit grounded

end OutsidePasses

/-! ## Passes and decisions of recast sessions -/

section Passes

variable {f : β → γ} {h : Stage → Stage}

theorem maps_onAtoms {α : Type} (m : AtomM α) :
    Maps (recast f h) (onAtoms m) (onAtoms m) :=
  Maps.bind (Maps.modifyGet fun _ => rfl) fun _ => maps_orFail _ _

/-- Restrictions of sorts are looked up in the sorts alone. -/
theorem restrict_congr {s : Session β} {t : Session γ} (hsorts : t.sorts = s.sorts)
    (restrictions : List (String × List String)) :
    t.restrict restrictions = s.restrict restrictions := by
  induction restrictions with
  | nil => rfl
  | cons restriction rest ih =>
    obtain ⟨sort, constants⟩ := restriction
    rw [restrict, restrict, ih, hsorts]

variable [Backend β] [Backend γ] (hh : h .input = .input) (hf : Backend.Forwards f)

include hh hf

theorem maps_handClause (c : Clause) : Maps (recast f h) (handClause c) (handClause c) := by
  refine Maps.bind (Maps.modifyGet fun s => ?_) fun answer => ?_
  · rw [backend_recast, hf.add]
    rfl
  · refine Maps.bind (maps_orFail _ _) fun _ => ?_
    exact Maps.bind (Maps.modify fun _ => rfl) fun _ => maps_noteInput (k := id) (n := id) hh

theorem outsidePasses_recast : OutsidePasses (recast f h) :=
  ⟨fun _ => rfl, fun _ _ _ => rfl, fun _ _ => rfl, maps_handClause hh hf⟩

theorem maps_unfoldRestricted (rule : Rule) (restrictions : List (String × List String)) :
    Maps (recast f h) (unfoldRestricted rule restrictions)
      (unfoldRestricted rule restrictions) := by
  refine Maps.get_bind fun s => ?_
  rw [restrict_congr (show (s.recast f h).sorts = s.sorts from rfl)]
  exact (outsidePasses_recast hh hf).unfoldGrounded _ s

theorem maps_unfoldInstance : Maps (recast f h) unfoldInstance unfoldInstance :=
  Maps.get_bind fun s => (outsidePasses_recast hh hf).unfoldGrounded _ s

theorem maps_assumeUniqueNames : Maps (recast f h) assumeUniqueNames assumeUniqueNames :=
  Maps.get_bind fun s => (outsidePasses_recast hh hf).commit _ s

theorem maps_assertAtom (text : String) (polarity : Bool) :
    Maps (recast f h) (assertAtom text polarity) (assertAtom text polarity) :=
  Maps.bind (maps_onAtoms _) fun l => maps_handClause hh hf [l]

theorem maps_reset : Maps (recast f h) reset reset := by
  refine Maps.modify fun s => ?_
  unfold recast
  rw [hf.reset, hh]

omit hh in
/-- A decision sets the stage, unless it fails. -/
theorem exec_solveWith_recast (assumptions : List String) (s : Session β) :
    ∃ h', (h' = h ∨ h' = id) ∧ exec (solveWith assumptions) (s.recast f h) =
      ((exec (solveWith assumptions) s).1, (exec (solveWith assumptions) s).2.recast f h') := by
  cases hread : assumptions.mapM (assumptionLiteral s.atoms) with
  | error e =>
    refine ⟨h, .inl rfl, ?_⟩
    rw [exec_solveWith_error hread, exec_solveWith_error (s := s.recast f h) hread]
  | ok literals =>
    rw [exec_solveWith_ok hread, exec_solveWith_ok (s := s.recast f h) hread]
    rw [backend_recast, hf.solve]
    cases Backend.solve s.backend literals with
    | mk answer backend =>
      cases answer with
      | error e => exact ⟨h, .inl rfl, rfl⟩
      | ok verdict =>
        refine ⟨id, .inr rfl, ?_⟩
        cases verdict with
        | satisfiable =>
          show (((Backend.model (f backend)).mapError Failure.backend).map (true, ·), _) = _
          rw [hf.model]
          rfl
        | unsatisfiable => rfl
        | unknown => rfl

end Passes

/-! ## Runs -/

section Runs

variable [Backend β] [Backend γ] {f : β → γ} {h : Stage → Stage}

/-- An operation goes on from the stage that it finds, or sets another one. -/
theorem after_recast (hh : h .input = .input) (hf : Backend.Forwards f) (s : Session β)
    (op : Operation) :
    ∃ h', (h' = h ∨ h' = id) ∧ (s.recast f h).after op = (s.after op).recast f h' := by
  by_cases hsolve : ∃ assumptions, op = .solveWith assumptions
  · obtain ⟨assumptions, rfl⟩ := hsolve
    obtain ⟨h', hsame, hafter⟩ := exec_solveWith_recast (h := h) hf assumptions s
    exact ⟨h', hsame, congrArg Prod.snd hafter⟩
  · refine ⟨h, .inl rfl, ?_⟩
    cases op with
    | unfoldRule rule => exact (maps_unfoldRestricted hh hf rule []).state_eq s
    | unfoldRestricted rule restrictions =>
      exact (maps_unfoldRestricted hh hf rule restrictions).state_eq s
    | unfoldInstance => exact (maps_unfoldInstance hh hf).state_eq s
    | assumeUniqueNames => exact (maps_assumeUniqueNames hh hf).state_eq s
    | addGroundClause kind clause => exact ((outsidePasses_recast hh hf).commit _).state_eq s
    | assertAtom text polarity => exact (maps_assertAtom hh hf text polarity).state_eq s
    | solveWith assumptions => exact absurd ⟨assumptions, rfl⟩ hsolve
    | reset => exact (maps_reset hh hf).state_eq s
    | _ => exact after_overlay (k := id) (n := id) hh s trivial

theorem run_recast (hh : h .input = .input) (hf : Backend.Forwards f) (s : Session β)
    (ops : List Operation) :
    ∃ h', (h' = h ∨ h' = id) ∧
      ops.foldl Session.after (s.recast f h) = (ops.foldl Session.after s).recast f h' := by
  induction ops generalizing s h with
  | nil => exact ⟨h, .inl rfl, rfl⟩
  | cons op ops ih =>
    obtain ⟨h₁, hsame₁, hafter⟩ := after_recast hh hf s op
    have hinput : h₁ .input = .input := by
      rcases hsame₁ with rfl | rfl
      · exact hh
      · rfl
    obtain ⟨h₂, hsame₂, hrun⟩ := ih hinput (s.after op)
    refine ⟨h₂, ?_, ?_⟩
    · rcases hsame₂ with rfl | rfl
      · exact hsame₁
      · exact .inr rfl
    · rw [List.foldl_cons, List.foldl_cons, hafter, hrun]

theorem run_mapBackend (hf : Backend.Forwards f) (s : Session β) (ops : List Operation) :
    ops.foldl Session.after (s.mapBackend f) = (ops.foldl Session.after s).mapBackend f := by
  obtain ⟨h', hsame, hrun⟩ := run_recast (h := id) rfl hf s ops
  obtain rfl : h' = id := hsame.elim id id
  exact hrun

end Runs

theorem forwards_id [Backend β] : Backend.Forwards (id : β → β) :=
  ⟨fun _ _ => rfl, fun _ _ => rfl, fun _ => rfl, fun _ => rfl⟩

/-- Sessions that differ in what was put in or decided last do the same, and differ in nothing
else afterwards. -/
theorem run_noteInput [Backend β] (s : Session β) (ops : List Operation) :
    ∃ stage, ops.foldl Session.after { s with stage := .input } =
      { ops.foldl Session.after s with stage := stage } := by
  obtain ⟨h', _, hrun⟩ := run_recast (h := fun _ => .input) rfl forwards_id s ops
  exact ⟨h' (ops.foldl Session.after s).stage, hrun⟩

end Session

end Groundwork
