import Groundwork.Proofs.Session.Numbering
import Groundwork.Proofs.Session.Reached
import Groundwork.Proofs.Solver.Replay

/-!
# Sessions that their atoms and clauses record

A session that was made from options keeps nothing about its instance that its atoms and its
clauses do not tell.  In particular its solver knows as many atoms as a solver that was given
the clauses afresh, although numbers are given out before clauses are handed over, and although
assumptions bring atoms in as well.  This is so because no ground atom is left without a clause:
a pass that fails withdraws the numbers it gave out.

* `Recorded`: the invariant, with one lemma for each way in which a session may change;
* `Recorded.after`, `Recorded.run`: the step and the run.
-/

namespace Groundwork

namespace Session

/-- Everything about the instance is told by its atoms and its clauses. -/
structure Recorded (minimise : Bool) (s : Session Solver) : Prop where
  coherent : s.Coherent Solver.Holds
  dense : s.atoms.Dense
  fitting : s.atoms.Fitting
  /-- No ground atom is left without a clause. -/
  occurs : ∀ text, (s.atoms.get? text).isSome →
    ∃ c ∈ s.clauses.toList, ∃ l ∈ c, s.atoms.text? (Literal.atom l) = some text
  backend_eq : s.backend.forget = Solver.ofClauses minimise s.clauses.toList

variable {minimise : Bool} {s u : Session Solver}

theorem ofInstance_recorded : OfInstance (Recorded minimise) := by
  intro s t hsame h
  refine ⟨ofInstance_coherent _ _ _ hsame h.coherent, ?_, ?_, ?_, ?_⟩
  · rw [hsame.atoms_eq]
    exact h.dense
  · rw [hsame.atoms_eq]
    exact h.fitting
  · rw [hsame.atoms_eq, hsame.clauses_eq]
    exact h.occurs
  · rw [hsame.backend_eq, hsame.clauses_eq]
    exact h.backend_eq

theorem Coherent.proper {holds : Solver → List Clause → Prop} (h : s.Coherent holds) :
    ∀ c ∈ s.clauses.toList, ∀ l ∈ c, Literal.Proper l :=
  fun c hc l hl => AtomTable.Sound.proper h.largest_le (h.named c hc l hl)

/-- The solver has met every atom of the session in some clause. -/
theorem Recorded.atom_le (h : Recorded minimise s) {l : Literal} (hl : s.atoms.Names l) :
    Literal.atom l ≤ s.backend.atoms := by
  have hsound := h.coherent.sound
  obtain ⟨text, htext⟩ := Option.isSome_iff_exists.1 hl
  have hget := (hsound.get?_iff _ _).2 htext
  obtain ⟨c, hc, l', hl', htext'⟩ := h.occurs text (Option.isSome_iff_exists.2 ⟨_, hget⟩)
  have hget' := (hsound.get?_iff _ _).2 htext'
  rw [hget, Option.some.injEq] at hget'
  have hle := Solver.atom_le_ofClauses minimise h.coherent.proper hc hl'
  rwa [← h.backend_eq, ← hget'] at hle

/-! ## Handing clauses over -/

/-- Ground atoms come in together with clauses in which they occur. -/
theorem Recorded.handed (h : Recorded minimise s) (hu : u.Coherent Solver.Holds)
    (mentions : List Mention) (new : List (List (String × Bool)))
    (hatoms : u.atoms = s.atoms.meetAll mentions)
    (htexts : ∀ text ∈ mentions.map Mention.text, ∃ c ∈ new, ∃ signed ∈ c, signed.1 = text)
    (hclauses : u.clauses.toList = s.clauses.toList ++ new.map fun c => c.map u.atoms.literalOf)
    (hbackend : u.backend = ((new.map fun c => c.map u.atoms.literalOf).map
      Solver.Call.add).foldl Solver.after s.backend) : Recorded minimise u := by
  have hproper := hu.proper
  rw [hclauses] at hproper
  refine ⟨hu, ?_, ?_, fun text hknown => ?_, ?_⟩
  · rw [hatoms]
    exact h.dense.meetAll mentions
  · rw [hatoms]
    exact h.fitting.meetAll h.coherent.sound mentions
  · rw [hclauses]
    rw [hatoms, AtomTable.known_meetAll] at hknown
    rcases hknown with hold | hnew
    · obtain ⟨c, hc, l, hl, htext⟩ := h.occurs text hold
      refine ⟨c, List.mem_append_left _ hc, l, hl, ?_⟩
      rw [hatoms]
      exact h.coherent.sound.text?_meetAll htext mentions
    · obtain ⟨c, hc, signed, hsigned, rfl⟩ := htexts text hnew
      refine ⟨_, List.mem_append_right _ (List.mem_map_of_mem hc), _, List.mem_map_of_mem hsigned,
        (hu.sound.literalOf hu.largest_le ?_).1⟩
      rw [hatoms, AtomTable.known_meetAll]
      exact Or.inr hnew
  · rw [hbackend, hclauses, Solver.ofClauses_append, ← h.backend_eq]
    exact Solver.foldl_add_forget (fun c hc => hproper c (List.mem_append_right _ hc)) _

theorem Recorded.commit (h : Recorded minimise s) (grounded : List Grounded) :
    Recorded minimise (exec (commit grounded) s).2 := by
  have hcoherent := h.coherent
  have hkept := Coherent.commit Solver.follows grounded s hcoherent
  by_cases hroom : (s.atoms.meetAll (mentionsOfAll grounded)).largest ≤ maxAtom
  · obtain ⟨counters, hcommit⟩ := hcoherent.exec_commit_solver hroom
    rw [hcommit] at hkept ⊢
    refine h.handed hkept (mentionsOfAll grounded) (signedOfAll grounded) rfl
      (fun text htext => ?_) (clauses_withClauses _ _ counters) rfl
    rw [texts_mentionsOfAll, List.mem_flatMap] at htext
    obtain ⟨c, hc, htext⟩ := htext
    exact ⟨c, hc, List.mem_map.1 htext⟩
  · obtain ⟨met, counters, _, hcommit, hwithdrawn⟩ := hcoherent.exec_commit_error hroom
    rw [hcommit]
    have hsound := hcoherent.sound.meetAll met
    refine ⟨hwithdrawn, (h.dense.meetAll met).rollback _,
      (h.fitting.meetAll hcoherent.sound met).rollback hsound _, fun text hknown => ?_,
      h.backend_eq⟩
    obtain ⟨atom, hget⟩ := Option.isSome_iff_exists.1 hknown
    obtain ⟨hget, hle⟩ := (AtomTable.get?_rollback_iff hsound).1 hget
    -- The number was given out before, so it belongs to an old ground atom.
    obtain ⟨old, hold⟩ := Option.isSome_iff_exists.1
      (h.dense atom (hsound.le_largest hget).1 hle)
    have hsame := hcoherent.sound.text?_meetAll hold met
    rw [(hsound.get?_iff _ _).1 hget, Option.some.injEq] at hsame
    subst hsame
    have hget' := (hcoherent.sound.get?_iff _ _).2 hold
    obtain ⟨c, hc, l, hl, htext⟩ := h.occurs text (Option.isSome_iff_exists.2 ⟨_, hget'⟩)
    exact ⟨c, hc, l, hl, hcoherent.sound.text?_rollback htext met⟩

theorem Recorded.assertAtom (h : Recorded minimise s) (text : String) (polarity : Bool) :
    Recorded minimise (exec (assertAtom text polarity) s).2 := by
  have hkept := keeps_assertAtom Solver.follows text polarity s h.coherent
  rcases h.coherent.exec_assertAtom text polarity with
    ⟨t, l, rfl, rfl, ht, _, hnames, hexec⟩ | hexec
  · obtain ⟨admission, backend, hadd⟩ := Solver.accepts s.backend _ fun l hl =>
      List.mem_singleton.1 hl ▸ AtomTable.Sound.proper ht.largest_le hnames
    rw [hexec, exec_handClause_ok (s := { s with atoms := s.atoms.meetAll [⟨text, []⟩] }) hadd]
      at hkept ⊢
    refine h.handed hkept [⟨text, []⟩] [[(text, polarity)]] rfl ?_ ?_ ?_
    · intro other hother
      exact ⟨_, List.mem_cons_self, _, List.mem_cons_self, (List.mem_singleton.1 hother).symm⟩
    · exact Array.toList_push
    · exact (congrArg Prod.snd hadd).symm
  · rw [hexec]
    exact h

/-! ## Decisions and resets -/

/-- All that a decision changes about the instance is what the solver found last. -/
theorem exec_solveWith_backend {assumptions : List String} {literals : List Literal}
    (h : assumptions.mapM (assumptionLiteral s.atoms) = .ok literals) :
    (exec (solveWith assumptions) s).2.backend = (s.backend.solve literals).2 := by
  rw [exec_solveWith_ok h]
  show _ = (Backend.solve s.backend literals).2
  split <;> next hsolve => rw [hsolve]; rfl

theorem Recorded.solveWith (h : Recorded minimise s) (assumptions : List String) :
    Recorded minimise (exec (solveWith assumptions) s).2 := by
  have hkept := keeps_solveWith Solver.follows assumptions s h.coherent
  obtain ⟨hatoms, hclauses⟩ := s.after_solveWith assumptions
  have hatoms : (exec (Session.solveWith assumptions) s).2.atoms = s.atoms := hatoms
  have hclauses : (exec (Session.solveWith assumptions) s).2.clauses = s.clauses := hclauses
  refine ⟨hkept, hatoms ▸ h.dense, hatoms ▸ h.fitting, ?_, ?_⟩
  · rw [hatoms, hclauses]
    exact h.occurs
  · rw [hclauses, ← h.backend_eq]
    have hread := mapM_assumptionLiteral s.atoms assumptions
    cases hfind : assumptions.find? fun a => !(s.atoms.get? (readAssumption a).1).isSome with
    | some a =>
      rw [hfind] at hread
      rw [exec_solveWith_error hread]
    | none =>
      rw [hfind] at hread
      have hknown := find?_unknown_eq_none_iff.1 hfind
      rw [exec_solveWith_backend hread]
      refine Solver.forget_solve (h.coherent.proper_literals hknown) fun l hl => h.atom_le ?_
      obtain ⟨a, ha, rfl⟩ := List.mem_map.1 hl
      exact h.coherent.sound.names_literalOf h.coherent.largest_le (hknown a ha)

/-- An instance without atoms and clauses is recorded if its solver is fresh. -/
theorem recorded_of_empty (hatoms : s.atoms = {}) (hclauses : s.clauses = #[])
    (hbackend : s.backend = { minimise }) : Recorded minimise s := by
  refine ⟨⟨?_, ?_, ?_, ?_⟩, ?_, ?_, fun text hknown => ?_, ?_⟩
  · rw [hatoms]
    exact AtomTable.sound_empty
  · rw [hatoms]
    exact Nat.zero_le _
  · simp [hclauses]
  · rw [hbackend, hclauses]
    exact ⟨{}, Solver.records_nil minimise, rfl⟩
  · rw [hatoms]
    exact AtomTable.dense_empty
  · rw [hatoms]
    exact AtomTable.fitting_empty
  · rw [hatoms, show ({} : AtomTable).get? text = none from Std.HashMap.getElem?_empty] at hknown
    cases hknown
  · rw [hbackend, hclauses]
    rfl

theorem Recorded.reset (h : Recorded minimise s) : Recorded minimise (exec reset s).2 := by
  have hproper : ∀ call ∈ s.clauses.toList.map Solver.Call.add, call.Proper := by
    intro call hcall
    obtain ⟨c, hc, rfl⟩ := List.mem_map.1 hcall
    exact h.coherent.proper c hc
  have hminimise : s.backend.minimise = minimise := by
    rw [show s.backend.minimise = s.backend.forget.minimise from rfl, h.backend_eq]
    exact Solver.minimise_run minimise hproper
  refine recorded_of_empty rfl rfl ?_
  show s.backend.reset = _
  rw [Solver.reset, hminimise]

/-! ## All operations -/

theorem Recorded.after (h : Recorded minimise s) (op : Operation) :
    Recorded minimise (s.after op) := by
  cases s.acts_after op with
  | leaves hsame => exact ofInstance_recorded _ _ hsame h
  | @commits _ hsame grounded _ heq =>
    rw [heq]
    exact (ofInstance_recorded _ _ hsame h).commit grounded
  | asserts text polarity _ heq =>
    rw [heq]
    exact h.assertAtom text polarity
  | decides assumptions heq =>
    rw [heq]
    exact h.solveWith assumptions
  | resets heq =>
    rw [heq]
    exact h.reset

/-- The induction is on the operations, from the first on. -/
theorem Recorded.run (h : Recorded minimise s) (ops : List Operation) :
    Recorded minimise (ops.foldl Session.after s) := by
  induction ops generalizing s with
  | nil => exact h
  | cons op ops ih => exact ih (h.after op)

theorem recorded_run (options : Options) (ops : List Operation) :
    Recorded options.minimiseCore (ops.foldl Session.after (ofOptions options)) :=
  (recorded_of_empty rfl rfl rfl).run ops

end Session

end Groundwork
