import Groundwork.Proofs.Session.Growing
import Groundwork.Proofs.Solver.Core
import Mathlib.Data.List.DropRight

/-!
# Verdicts that are never stale

A session says at any time what it knows of its instance.  What it says is about the clauses
that it has at that time and the assumptions of the last decision that succeeded, however many
operations came after it and whether or not they failed.

* `normalForm`: an assumption as a core writes it, which says the same;
* `Backed`: the invariant, which also says where the core of the backend comes from;
* `Coherent.backed_solveWith`, `Backed.grows`: a decision establishes it, and an operation that
  puts something in keeps it or takes the verdict back;
* `run_current`: what follows for the verdict and the core after every run.
-/

namespace Groundwork

/-! ## How assumptions are written -/

namespace Text

theorem trim_trim (cs : List Char) : trim (trim cs) = trim cs := by
  have hstart : trimStart (trim cs) = trim cs := by
    refine List.dropWhile_eq_self_iff.2 fun hpos => ?_
    have hcut : trim cs <+: trimStart cs := List.rdropWhile_prefix isBlank _
    rw [hcut.getElem hpos]
    exact List.dropWhile_eq_self_iff.1 (List.dropWhile_idempotent isBlank cs) _
  rw [trim, hstart]
  exact List.rdropWhile_idempotent isBlank (trimStart cs)

/-- What stands in front of a trimmed text is not trimmed either, unless it is blank. -/
theorem trim_cons_trim {c : Char} (hc : isBlank c = false) (cs : List Char) :
    trim (c :: trim cs) = c :: trim cs := by
  have hstart : trimStart (c :: trim cs) = c :: trim cs :=
    List.dropWhile_cons_of_neg (by simp [hc])
  have hlast := List.rdropWhile_eq_self_iff.1 (List.rdropWhile_idempotent isBlank (trimStart cs))
  rw [trim, hstart]
  refine List.rdropWhile_eq_self_iff.2 fun hne => ?_
  by_cases hnil : trim cs = []
  · simp [hnil, hc]
  · rw [List.getLast_cons hnil]
    exact hlast hnil

end Text

namespace Session

/-- The assumption without blanks around it or after its dash. -/
def normalForm (assumption : String) : String :=
  if (readAssumption assumption).2 then (readAssumption assumption).1
  else "-" ++ (readAssumption assumption).1

theorem readAssumption_of_dash {assumption : String} {rest : List Char}
    (h : Text.trim assumption.toList = '-' :: rest) :
    readAssumption assumption = (String.ofList (Text.trim rest), false) := by
  rw [readAssumption, h]
  rfl

theorem readAssumption_of_not_dash {assumption : String}
    (h : ∀ rest, Text.trim assumption.toList ≠ '-' :: rest) :
    readAssumption assumption = (String.ofList (Text.trim assumption.toList), true) := by
  unfold readAssumption
  split
  · next rest hdash => exact absurd hdash (h rest)
  · rfl

/-- An assumption in its normal form is read as before. -/
theorem readAssumption_normalForm (assumption : String) :
    readAssumption (normalForm assumption) = readAssumption assumption := by
  unfold normalForm
  by_cases hdash : ∃ rest, Text.trim assumption.toList = '-' :: rest
  · obtain ⟨rest, hrest⟩ := hdash
    have hwritten : Text.trim ("-" ++ String.ofList (Text.trim rest)).toList =
        '-' :: Text.trim rest := by
      rw [String.toList_append, String.toList_ofList, String.toList_ofList]
      exact Text.trim_cons_trim (c := '-') (by decide) rest
    rw [readAssumption_of_dash hrest]
    exact (readAssumption_of_dash hwritten).trans (by rw [Text.trim_trim])
  · have hnot : ∀ rest, Text.trim assumption.toList ≠ '-' :: rest := not_exists.1 hdash
    have hwritten : Text.trim (String.ofList (Text.trim assumption.toList)).toList =
        Text.trim assumption.toList := by
      rw [String.toList_ofList, Text.trim_trim]
    rw [readAssumption_of_not_dash hnot, if_pos rfl,
      readAssumption_of_not_dash (by rwa [hwritten]), hwritten]

theorem assumed_map_normalForm {v : String → Bool} {assumptions : List String} :
    Assumed v (assumptions.map normalForm) ↔ Assumed v assumptions := by
  simp only [Assumed, List.forall_mem_map, readAssumption_normalForm]

/-- The literals of known assumptions are written as their normal forms. -/
theorem filterMap_literalText? {t : AtomTable} (h : t.Sound) (hle : t.largest ≤ maxAtom)
    {assumptions : List String}
    (hknown : ∀ a ∈ assumptions.map readAssumption, (t.get? a.1).isSome) :
    ((assumptions.map readAssumption).map t.literalOf).filterMap (literalText? t) =
      assumptions.map normalForm := by
  rw [List.map_map, List.filterMap_map, ← List.filterMap_eq_map]
  refine List.filterMap_congr fun assumption hmem => ?_
  obtain ⟨htext, hpolarity⟩ := h.literalOf hle (hknown _ (List.mem_map_of_mem hmem))
  simp only [Function.comp_apply, literalText?, htext, hpolarity, Option.map_some]
  rfl

/-! ## What backs a verdict -/

section Backed

variable {s t : Session Solver} {last : List String}

/-- Some of the last assumptions refute the clauses of the session, and the backend has their
literals for its core. -/
structure Refutes (s : Session Solver) (last kept : List String) : Prop where
  sublist : kept.Sublist last
  known : ∀ a ∈ kept.map readAssumption, (s.atoms.get? a.1).isSome
  core_eq : s.backend.core = (kept.map readAssumption).map s.atoms.literalOf
  refuted : ¬ ∃ v, s.Models v ∧ Assumed v kept

/-- What the session was found to be, it is, under the last assumptions. -/
structure Backed (s : Session Solver) (last : List String) : Prop where
  satisfiable : s.stage = .satisfiable → ∃ v, s.Models v ∧ Assumed v last
  unsatisfiable : s.stage = .unsatisfiable → ∃ kept, s.Refutes last kept

theorem backed_of_input (h : s.stage = .input) : s.Backed last := by
  refine ⟨fun hstage => ?_, fun hstage => ?_⟩ <;> rw [h] at hstage <;> cases hstage

/-- An operation that adds clauses takes the verdict back. -/
theorem Backed.grows {added : List (List (String × Bool))} (h : s.Backed last)
    (hs : s.Coherent Solver.Holds) (ht : t.Coherent Solver.Holds) (hgrows : s.Grows t added) :
    t.Backed last := by
  rcases hgrows.stage_eq with hinput | ⟨rfl, hstage, hbackend⟩
  · exact backed_of_input hinput
  · have hmodels : ∀ v, t.Models v ↔ s.Models v := fun v =>
      (hgrows.models_iff hs ht v).trans (and_iff_left (by simp))
    refine ⟨fun hsat => ?_, fun hunsat => ?_⟩
    · obtain ⟨v, hv, hlast⟩ := h.satisfiable (hstage ▸ hsat)
      exact ⟨v, (hmodels v).2 hv, hlast⟩
    · obtain ⟨kept, hsublist, hknown, hcore, hrefuted⟩ := h.unsatisfiable (hstage ▸ hunsat)
      have hget : ∀ a ∈ kept.map readAssumption, t.atoms.get? a.1 = s.atoms.get? a.1 := by
        intro a ha
        obtain ⟨atom, hatom⟩ := Option.isSome_iff_exists.1 (hknown a ha)
        rw [hatom, ht.sound.get?_iff]
        exact hgrows.text?_eq atom a.1 ((hs.sound.get?_iff _ _).1 hatom)
      refine ⟨kept, hsublist, fun a ha => ?_, ?_, ?_⟩
      · rw [hget a ha]
        exact hknown a ha
      · rw [hbackend, hcore]
        refine List.map_congr_left fun a ha => ?_
        rw [AtomTable.literalOf, AtomTable.literalOf, hget a ha]
      · simpa only [hmodels] using hrefuted

/-- The core that the solver leaves behind comes from some of the assumptions. -/
theorem Coherent.refutes_decided (h : s.Coherent Solver.Holds) {assumptions : List String}
    (hknown : ∀ a ∈ assumptions.map readAssumption, (s.atoms.get? a.1).isSome)
    (hnot : ¬ ∃ v, s.Models v ∧ Assumed v assumptions) :
    ∃ kept, (s.decided assumptions
      (s.backend.solve ((assumptions.map readAssumption).map s.atoms.literalOf)).2
        .unsatisfiable).Refutes assumptions kept := by
  obtain ⟨g, hrecords, hclauses⟩ := h.holds
  have hproper := h.proper_literals hknown
  have hrefuted : ¬ Satisfiable g.clauses
      ((assumptions.map readAssumption).map s.atoms.literalOf) := by
    rwa [hclauses, h.satisfiable_iff hknown]
  have hcore := Solver.core_solve hrecords hproper hrefuted
  have hsub := Solver.coreOf_sublist s.backend.formula s.backend.minimise
    ((assumptions.map readAssumption).map s.atoms.literalOf)
  rw [← hcore, List.map_map, List.sublist_map_iff] at hsub
  obtain ⟨kept, hkept, heq⟩ := hsub
  rw [← List.map_map, ← List.map_map] at heq
  have hknown' : ∀ a ∈ kept.map readAssumption, (s.atoms.get? a.1).isSome := fun a ha =>
    hknown a ((hkept.map readAssumption).subset ha)
  refine ⟨kept, hkept, hknown', heq, ?_⟩
  show ¬ ∃ v, s.Models v ∧ Assumed v kept
  rw [← h.satisfiable_iff hknown', ← hclauses, ← heq, hcore, ← hrecords.satisfiable_iff]
  refine Solver.not_satisfiable_coreOf ?_ _
  rwa [hrecords.satisfiable_iff]

/-- A decision that fails changes nothing, and any other backs its verdict. -/
theorem Coherent.backed_solveWith (h : s.Coherent Solver.Holds) (assumptions : List String) :
    (∃ e, exec (solveWith assumptions) s = (.error e, s)) ∨
      ∃ answer t, exec (solveWith assumptions) s = (.ok answer, t) ∧ t.Backed assumptions := by
  have hread := mapM_assumptionLiteral s.atoms assumptions
  cases hfind : assumptions.find? fun a => !(s.atoms.get? (readAssumption a).1).isSome with
  | some a =>
    rw [hfind] at hread
    exact Or.inl ⟨_, exec_solveWith_error hread⟩
  | none =>
    rw [hfind] at hread
    have hknown := find?_unknown_eq_none_iff.1 hfind
    refine Or.inr ?_
    rcases h.exec_solveWith hknown rfl with ⟨model, hexec, _, _, hsat⟩ | ⟨hexec, hunsat⟩
    · refine ⟨_, _, hexec, fun _ => hsat, fun hstage => ?_⟩
      cases hstage
    · refine ⟨_, _, hexec, fun hstage => ?_, fun _ => h.refutes_decided hknown hunsat⟩
      cases hstage

end Backed

/-! ## Runs -/

/-- The assumptions of the last decision that succeeded, after an operation. -/
def lastAfter (s : Session Solver) (last : List String) : Operation → List String
  | .solveWith assumptions =>
    match (exec (solveWith assumptions) s).1 with
    | .ok _ => assumptions
    | .error _ => last
  | _ => last

/-- The assumptions of the last decision of a run that succeeded. -/
def lastAssumptions (s : Session Solver) (last : List String) : List Operation → List String
  | [] => last
  | op :: ops => (s.after op).lastAssumptions (s.lastAfter last op) ops

theorem Backed.after {s : Session Solver} {last : List String} (h : s.Backed last)
    (hs : s.Coherent Solver.Holds) (op : Operation) :
    (s.after op).Backed (s.lastAfter last op) := by
  rcases op.isInput_or with hinput | ⟨assumptions, rfl⟩ | rfl
  · have hsame : s.lastAfter last op = last := by
      cases op with
      | solveWith assumptions => exact hinput.elim
      | _ => rfl
    obtain ⟨added, _, hgrows⟩ := hs.grows_after Solver.accepts Solver.follows hinput
    rw [hsame]
    exact h.grows hs (hs.after Solver.follows op) hgrows
  · show (exec (solveWith assumptions) s).2.Backed
      (match (exec (solveWith assumptions) s).1 with
        | .ok _ => assumptions
        | .error _ => last)
    rcases hs.backed_solveWith assumptions with ⟨e, herror⟩ | ⟨answer, t, hok, ht⟩
    · rw [herror]
      exact h
    · rw [hok]
      exact ht
  · exact backed_of_input rfl

/-- The invariant of all runs, by induction on the operations. -/
theorem backed_run {s : Session Solver} {last : List String} (h : s.Backed last)
    (hs : s.Coherent Solver.Holds) (ops : List Operation) :
    (ops.foldl Session.after s).Backed (s.lastAssumptions last ops) ∧
      (ops.foldl Session.after s).Coherent Solver.Holds := by
  induction ops generalizing s last with
  | nil => exact ⟨h, hs⟩
  | cons op ops ih => exact ih (h.after hs op) (hs.after Solver.follows op)

/-- What a session says of itself is true of the clauses that it has, under the last
assumptions. -/
structure Current (s : Session Solver) (last : List String) : Prop where
  satisfiable : s.verdict = .satisfiable → ∃ v, s.Models v ∧ Assumed v last
  unsatisfiable : s.verdict = .unsatisfiable → ¬ ∃ v, s.Models v ∧ Assumed v last
  /-- There is a core exactly if the verdict is that there is no model. -/
  core_iff : (∃ core, s.core = .ok core) ↔ s.verdict = .unsatisfiable
  /-- A core consists of last assumptions, which the clauses do not allow together. -/
  core_sublist : ∀ core, s.core = .ok core → core.Sublist (last.map normalForm)
  core_refuted : ∀ core, s.core = .ok core → ¬ ∃ v, s.Models v ∧ Assumed v core

theorem verdict_eq_satisfiable_iff {s : Session Solver} :
    s.verdict = .satisfiable ↔ s.stage = .satisfiable := by
  unfold verdict
  cases s.stage <;> simp [Stage.verdict]

theorem verdict_eq_unsatisfiable_iff {s : Session Solver} :
    s.verdict = .unsatisfiable ↔ s.stage = .unsatisfiable := by
  unfold verdict
  cases s.stage <;> simp [Stage.verdict]

theorem core_eq_ok_iff {s : Session Solver} {core : List String} :
    s.core = .ok core ↔
      s.stage = .unsatisfiable ∧ s.backend.core.filterMap (literalText? s.atoms) = core := by
  unfold Session.core
  by_cases hstage : s.stage = .unsatisfiable
  · rw [if_pos hstage, and_iff_right hstage]
    rw [Except.ok.injEq]
    rfl
  · rw [if_neg hstage]
    exact iff_of_false (fun h => by cases h) fun h => hstage h.1

theorem Backed.current {s : Session Solver} {last : List String} (h : s.Backed last)
    (hs : s.Coherent Solver.Holds) : s.Current last := by
  have hcore : ∀ core, s.core = .ok core →
      ∃ kept, s.Refutes last kept ∧ core = kept.map normalForm := by
    intro core hcore
    obtain ⟨hstage, rfl⟩ := core_eq_ok_iff.1 hcore
    obtain ⟨kept, hkept⟩ := h.unsatisfiable hstage
    refine ⟨kept, hkept, ?_⟩
    rw [hkept.core_eq, filterMap_literalText? hs.sound hs.largest_le hkept.known]
  refine ⟨fun hverdict => ?_, fun hverdict hmodel => ?_, ?_, fun core hok => ?_, fun core hok => ?_⟩
  · exact h.satisfiable (verdict_eq_satisfiable_iff.1 hverdict)
  · obtain ⟨kept, hkept⟩ := h.unsatisfiable (verdict_eq_unsatisfiable_iff.1 hverdict)
    obtain ⟨v, hv, hlast⟩ := hmodel
    exact hkept.refuted ⟨v, hv, fun a ha => hlast a (hkept.sublist.subset ha)⟩
  · simp only [core_eq_ok_iff, verdict_eq_unsatisfiable_iff, exists_and_left, exists_eq', and_true]
  · obtain ⟨kept, hkept, rfl⟩ := hcore core hok
    exact hkept.sublist.map normalForm
  · obtain ⟨kept, hkept, rfl⟩ := hcore core hok
    simpa only [assumed_map_normalForm] using hkept.refuted

/-- After every run of operations, the verdict and the core of a session are about the clauses
that it has now and the assumptions of its last decision. -/
theorem run_current (options : Options) (ops : List Operation) :
    (ops.foldl Session.after (ofOptions options)).Current
      ((ofOptions options).lastAssumptions [] ops) := by
  have hstart : (ofOptions options).Backed [] := by
    refine ⟨fun hstage => ?_, fun hstage => ?_⟩ <;> cases hstage
  obtain ⟨hbacked, hcoherent⟩ := backed_run hstart (coherent_ofOptions options) ops
  exact hbacked.current hcoherent

end Session

end Groundwork
